import Optics.BackendCarbon
import Optics.Lib.Runs
import Mathlib.Logic.Function.Basic

/-! # The sockets of the carbon client

`carbon_send` and `carbon_free` with `socket_stream_connect`, system call by system call, in a
process whose other parts open and close descriptors of their own at any time. `fd <= 0` stands for
no connection, so that descriptor 0 is one that the client can hold and not know of; and `calloc`
leaves 0 in `fd`, which `carbon_free` closes.

* `Inv.act`: what the client holds, step by step;
* `carbon_sockets`: it calls on descriptors of its own, but for one `close(0)`. -/

namespace Optics.CarbonSockets

open Optics.Base Optics.Lib.Runs Optics.BackendCarbon

/-! ### The system -/

/-- Who has opened a descriptor. -/
inductive Holder where
  | client
  | others
  deriving DecidableEq

/-- Where the client is; `left` addresses of the host have not been tried. -/
inductive Stage where
  | idle
  /-- `socket_stream_connect`: to call `getaddrinfo` -/
  | lookup
  | socket (left : ℕ)
  | connect (fd left : ℕ)
  /-- the address is no good: to close the socket -/
  | close (fd left : ℕ)
  /-- behind the loop -/
  | found (fd : ℤ)
  | send
  /-- `send` has failed: to close `carbon->fd` -/
  | drop
  /-- `carbon_free`: to close `carbon->fd` -/
  | free
  | gone
  /-- an assertion has fired -/
  | aborted

/-- A call of `carbon_send`, and the client when it began. -/
structure Job where
  before : Client
  line : List UInt8
  ts : ℕ

/-- The descriptors of the process, the client, how often it has looked its host up, and the last
call of `carbon_send`. -/
structure State where
  table : ℕ → Option Holder
  client : Client
  stage : Stage
  lookups : ℕ
  job : Option Job

/-- What happens next: a call of the client begins, one of its system calls returns, or another part
of the process opens or closes a descriptor. -/
inductive Act where
  | begin (line : List UInt8) (ts : ℕ)
  | addresses (found : Option ℕ)
  | socket (fd : Option ℕ)
  | connect (ok : Bool)
  | close
  | found
  | send (sent : Sent)
  | free
  | othersOpen (fd : ℕ)
  | othersClose (fd : ℕ)

/-- `close`; there is nothing behind -1. -/
def closeFd (table : ℕ → Option Holder) (fd : ℤ) : ℕ → Option Holder :=
  if fd < 0 then table else Function.update table fd.toNat none

/-- The client with the attempt noted. -/
def Client.noted (client : Client) (ts : ℕ) : Client :=
  { client with carbon := { client.carbon with lastAttempt := ts } }

/-- The client without a connection. -/
def Client.dropped (client : Client) : Client :=
  { client with carbon := { client.carbon with fd := -1 } }

/-- `carbon_send` up to its first system call. -/
def beginSend (s : State) (line : List UInt8) (ts : ℕ) : State :=
  let s := { s with job := some ⟨s.client, line, ts⟩ }
  if s.client.carbon.fd ≤ 0 then
    if s.client.carbon.lastAttempt = ts then s
    else { s with client := Client.noted s.client ts, stage := .lookup }
  else { s with stage := .send }

/-- `carbon_connect` with what `socket_stream_connect` returns. -/
def foundFd (s : State) (fd : ℤ) : State :=
  match carbonConnect s.client (if fd > 0 then fd else -1) with
  | .ok (true, client) => { s with client := client, stage := .send }
  | .ok (false, client) => { s with client := client, stage := .idle }
  | .error _ => { s with stage := .aborted }

/-- `send` has returned. -/
def sentLine (s : State) (job : Job) (sent : Sent) : State :=
  match sent with
  | .failure => { s with stage := .drop }
  | .bytes n =>
    { s with client := sendLine s.client ⟨job.line, job.ts, 0, .bytes n⟩, stage := .idle }

/-- A step. -/
def act (s : State) : Act → Option State
  | .begin line ts =>
    match s.stage with
    | .idle => some (beginSend s line ts)
    | _ => none
  | .addresses found =>
    match s.stage, found with
    | .lookup, none => some { s with lookups := s.lookups + 1, stage := .found (-1) }
    | .lookup, some left => some { s with lookups := s.lookups + 1, stage := .socket left }
    | _, _ => none
  | .socket fd =>
    match s.stage, fd with
    | .socket (left + 1), none => some { s with stage := .socket left }
    | .socket (left + 1), some fd =>
      if s.table fd = none then
        some { s with table := Function.update s.table fd (some .client), stage := .connect fd left }
      else none
    | _, _ => none
  | .connect ok =>
    match s.stage with
    | .connect fd left => some { s with stage := if ok then .found fd else .close fd left }
    | _ => none
  | .close =>
    match s.stage with
    | .close fd left => some { s with table := closeFd s.table fd, stage := .socket left }
    | .drop => some { s with table := closeFd s.table s.client.carbon.fd
                             client := Client.dropped s.client, stage := .idle }
    | .free => some { s with table := closeFd s.table s.client.carbon.fd, stage := .gone }
    | _ => none
  | .found =>
    match s.stage with
    | .socket 0 => some { s with stage := .found (-1) }
    | .found fd => some (foundFd s fd)
    | _ => none
  | .send sent =>
    match s.stage, s.job with
    | .send, some job => some (sentLine s job sent)
    | _, _ => none
  | .free =>
    match s.stage with
    | .idle => some { s with stage := .free }
    | _ => none
  | .othersOpen fd =>
    if s.table fd = none then some { s with table := Function.update s.table fd (some .others) }
    else none
  | .othersClose fd =>
    if s.table fd = some .others then some { s with table := Function.update s.table fd none }
    else none

/-- The client as `optics_dump_carbon` makes it, in a process with any descriptors. -/
structure Start (s : State) : Prop where
  others : ∀ fd, s.table fd ≠ some .client
  client : s.client = Client.start
  stage : s.stage = .idle
  lookups : s.lookups = 0
  job : s.job = none

def Step (s s' : State) : Prop := ∃ a, act s a = some s'

/-! ### What the client holds -/

/-- The socket that is being connected. -/
def pending : Stage → List ℕ
  | .connect fd _ => [fd]
  | .close fd _ => [fd]
  | .found fd => if fd < 0 then [] else [fd.toNat]
  | _ => []

/-- The descriptors of the client, with `fd` in `struct carbon`. -/
def held (stage : Stage) (fd : ℤ) : List ℕ :=
  match stage with
  | .gone => []
  | stage => (if 0 < fd then [fd.toNat] else []) ++ pending stage

/-- The descriptor that the client is about to call on; -1 stands for none. -/
def callsOn (s : State) : Option ℤ :=
  match s.stage with
  | .connect fd _ => some fd
  | .close fd _ => some fd
  | .send | .drop | .free => some s.client.carbon.fd
  | _ => none

/-- The client is in `socket_stream_connect`, behind `getaddrinfo`. -/
def Stage.Connecting : Stage → Prop
  | .socket _ | .connect _ _ | .close _ _ | .found _ => True
  | _ => False

/-- What the client knows where it is. -/
def Knows (stage : Stage) (client : Client) (job : Option Job) : Prop :=
  match stage with
  | .lookup | .socket _ | .connect _ _ | .close _ _ | .found _ => ∃ j, job = some j ∧
      j.before.carbon.fd ≤ 0 ∧ j.before.carbon.lastAttempt ≠ j.ts ∧
      client = Client.noted j.before j.ts
  | .send | .drop => 0 < client.carbon.fd ∧ ∃ j, job = some j ∧
      ((0 < j.before.carbon.fd ∧ client = j.before) ∨
        (j.before.carbon.fd ≤ 0 ∧ j.before.carbon.lastAttempt ≠ j.ts ∧ ∃ fd > 0,
          carbonConnect (Client.noted j.before j.ts) fd = .ok (true, client)))
  | .aborted => False
  | _ => ∀ j, job = some j → ∃ fd sent,
      carbonSend j.before ⟨j.line, j.ts, fd, sent⟩ = .ok client

/-- The descriptors in a list are the client's, and it has no other, but for 0. -/
structure Holds (table : ℕ → Option Holder) (held : List ℕ) : Prop where
  mine : ∀ fd ∈ held, table fd = some .client
  few : ∀ fd, table fd = some .client → fd ∈ held ∨ fd = 0

/-- **The invariant.** -/
structure Inv (s : State) : Prop where
  knows : Knows s.stage s.client s.job
  holds : Holds s.table (held s.stage s.client.carbon.fd)
  never : s.lookups = 0 → s.client.carbon.fd = 0 ∧ ¬ s.stage.Connecting
  tried : s.lookups ≠ 0 → ¬ s.stage.Connecting → s.client.carbon.fd ≠ 0

section Holds
variable {table : ℕ → Option Holder} {held : List ℕ} {fd : ℕ}

theorem Holds.opened (h : Holds table held) (fd : ℕ) :
    Holds (Function.update table fd (some .client)) (fd :: held) := by
  refine ⟨fun p hp => ?_, fun p hp => ?_⟩
  · by_cases hpf : p = fd
    · simp [hpf]
    · rw [Function.update_of_ne hpf]
      exact h.mine p (by simpa [hpf] using hp)
  · by_cases hpf : p = fd
    · simp [hpf]
    · rw [Function.update_of_ne hpf] at hp
      simpa [hpf] using h.few p hp

theorem Holds.closed (h : Holds table (fd :: held)) (hfd : fd ∉ held) :
    Holds (Function.update table fd none) held := by
  refine ⟨fun p hp => ?_, fun p hp => ?_⟩
  · have hpf : p ≠ fd := fun hc => hfd (hc ▸ hp)
    rw [Function.update_of_ne hpf]
    exact h.mine p (List.mem_cons_of_mem _ hp)
  · by_cases hpf : p = fd
    · rw [hpf, Function.update_self] at hp
      cases hp
    · rw [Function.update_of_ne hpf] at hp
      simpa [hpf] using h.few p hp

theorem Holds.others (h : Holds table held) {v : Option Holder} (hfd : table fd ≠ some .client)
    (hv : v ≠ some .client) : Holds (Function.update table fd v) held := by
  refine ⟨fun p hp => ?_, fun p hp => ?_⟩
  · have hpf : p ≠ fd := fun hc => hfd (hc ▸ h.mine p hp)
    rw [Function.update_of_ne hpf]
    exact h.mine p hp
  · by_cases hpf : p = fd
    · rw [hpf, Function.update_self] at hp
      exact absurd hp hv
    · rw [Function.update_of_ne hpf] at hp
      exact h.few p hp

/-- A client that gives up what it has; 0 may be left with it. -/
theorem Holds.zero (h : Holds table [0]) : Holds table [] :=
  ⟨by simp, fun fd hfd => by simpa using h.few fd hfd⟩

end Holds

/-! ### One step -/

/-- What a step can be, branch by branch. -/
inductive Moves (s : State) : Act → State → Prop
  | begins (line : List UInt8) (ts : ℕ) (hs : s.stage = .idle) :
      Moves s (.begin line ts) (beginSend s line ts)
  | unknown (hs : s.stage = .lookup) :
      Moves s (.addresses none) { s with lookups := s.lookups + 1, stage := .found (-1) }
  | known (left : ℕ) (hs : s.stage = .lookup) :
      Moves s (.addresses (some left)) { s with lookups := s.lookups + 1, stage := .socket left }
  | refused {left : ℕ} (hs : s.stage = .socket (left + 1)) :
      Moves s (.socket none) { s with stage := .socket left }
  | opens {left : ℕ} (fd : ℕ) (hs : s.stage = .socket (left + 1)) (hfree : s.table fd = none) :
      Moves s (.socket (some fd)) { s with
        table := Function.update s.table fd (some .client), stage := .connect fd left }
  | connects {fd left : ℕ} (ok : Bool) (hs : s.stage = .connect fd left) :
      Moves s (.connect ok) { s with stage := if ok then .found fd else .close fd left }
  | closes {fd left : ℕ} (hs : s.stage = .close fd left) :
      Moves s .close { s with table := closeFd s.table fd, stage := .socket left }
  | drops (hs : s.stage = .drop) :
      Moves s .close { s with table := closeFd s.table s.client.carbon.fd
                              client := Client.dropped s.client, stage := .idle }
  | frees (hs : s.stage = .free) :
      Moves s .close { s with table := closeFd s.table s.client.carbon.fd, stage := .gone }
  | exhausted (hs : s.stage = .socket 0) : Moves s .found { s with stage := .found (-1) }
  | finds {fd : ℤ} (hs : s.stage = .found fd) : Moves s .found (foundFd s fd)
  | sends {job : Job} (sent : Sent) (hs : s.stage = .send) (hj : s.job = some job) :
      Moves s (.send sent) (sentLine s job sent)
  | retires (hs : s.stage = .idle) : Moves s .free { s with stage := .free }
  | othersOpen (fd : ℕ) (hfree : s.table fd = none) :
      Moves s (.othersOpen fd) { s with table := Function.update s.table fd (some .others) }
  | othersClose (fd : ℕ) (hopen : s.table fd = some .others) :
      Moves s (.othersClose fd) { s with table := Function.update s.table fd none }

theorem act_moves {s s' : State} {a : Act} (h : act s a = some s') : Moves s a s' := by
  cases a with
  | begin line ts =>
    simp only [act] at h
    split at h <;> cases h
    exact .begins line ts ‹_›
  | addresses found =>
    simp only [act] at h
    split at h <;> cases h
    · exact .unknown ‹_›
    · exact .known _ ‹_›
  | socket fd =>
    simp only [act] at h
    split at h
    · cases h
      exact .refused ‹_›
    · split_ifs at h with hfree
      cases h
      exact .opens _ ‹_› hfree
    · cases h
  | connect ok =>
    simp only [act] at h
    split at h <;> cases h
    exact .connects ok ‹_›
  | close =>
    simp only [act] at h
    split at h <;> cases h
    · exact .closes ‹_›
    · exact .drops ‹_›
    · exact .frees ‹_›
  | found =>
    simp only [act] at h
    split at h <;> cases h
    · exact .exhausted ‹_›
    · exact .finds ‹_›
  | send sent =>
    simp only [act] at h
    split at h <;> cases h
    exact .sends sent ‹_› ‹_›
  | free =>
    simp only [act] at h
    split at h <;> cases h
    exact .retires ‹_›
  | othersOpen fd =>
    simp only [act] at h
    split_ifs at h with hfree
    cases h
    exact .othersOpen fd hfree
  | othersClose fd =>
    simp only [act] at h
    split_ifs at h with hopen
    cases h
    exact .othersClose fd hopen

theorem held_none {stage : Stage} {fd : ℤ} (h : fd ≤ 0) : held stage fd = pending stage := by
  unfold held
  rw [if_neg (by omega)]
  cases stage <;> rfl

theorem held_some {stage : Stage} {fd : ℤ} (h : 0 < fd) (hs : stage ≠ .gone) :
    held stage fd = fd.toNat :: pending stage := by
  unfold held
  rw [if_pos h]
  cases stage
  case gone => exact absurd rfl hs
  all_goals rfl

theorem pending_length (stage : Stage) : (pending stage).length ≤ 1 := by
  cases stage
  case found fd =>
    rw [pending]
    split_ifs <;> simp
  all_goals simp [pending]

theorem pending_of_not {stage : Stage} (h : ¬ stage.Connecting) : pending stage = [] := by
  cases stage
  case socket | connect | close | found => exact absurd trivial h
  all_goals rfl

theorem inv_start {s : State} (h : Start s) : Inv s := by
  obtain ⟨hothers, hclient, hstage, hlookups, hjob⟩ := h
  have hfd : s.client.carbon.fd = 0 := by
    rw [hclient]
    rfl
  refine ⟨?_, ?_, fun _ => ⟨hfd, ?_⟩, fun hc => absurd hlookups hc⟩
  · simp [Knows, hstage, hjob]
  · rw [held_none hfd.le, hstage]
    exact ⟨by simp [pending], fun fd hc => absurd hc (hothers fd)⟩
  · simp [hstage, Stage.Connecting]

/-- A call of `carbon_send` that has no system call to make, or makes its first one. -/
theorem Inv.beginSend {s : State} (h : Inv s) (hs : s.stage = .idle) (line : List UInt8) (ts : ℕ) :
    Inv (beginSend s line ts) := by
  obtain ⟨-, hholds, hnever, htried⟩ := h
  rw [hs] at hholds hnever htried
  unfold CarbonSockets.beginSend
  dsimp only
  split_ifs with hfd hts
  · -- another attempt at the same time
    refine ⟨?_, ?_, ?_, ?_⟩
    · rw [hs]
      rintro j hj
      cases hj
      refine ⟨0, .failure, ?_⟩
      rw [carbonSend, if_pos hfd, if_pos hts]
    · rw [hs]
      exact hholds
    · rw [hs]
      exact hnever
    · rw [hs]
      exact htried
  · refine ⟨⟨_, rfl, hfd, hts, rfl⟩, ?_, hnever, htried⟩
    rw [held_none hfd] at hholds
    exact (held_none hfd).symm ▸ hholds
  · have hpos : 0 < s.client.carbon.fd := by omega
    refine ⟨⟨hpos, _, rfl, .inl ⟨hpos, rfl⟩⟩, ?_, hnever, htried⟩
    rw [held_some hpos (by simp)] at hholds ⊢
    exact hholds

theorem carbonSend_over {j : Job} {client : Client}
    (h : (0 < j.before.carbon.fd ∧ client = j.before) ∨
      (j.before.carbon.fd ≤ 0 ∧ j.before.carbon.lastAttempt ≠ j.ts ∧ ∃ fd > 0,
        carbonConnect (Client.noted j.before j.ts) fd = .ok (true, client))) (sent : Sent) :
    ∃ fd, carbonSend j.before ⟨j.line, j.ts, fd, sent⟩ =
      .ok (sendLine client ⟨j.line, j.ts, 0, sent⟩) := by
  rcases h with ⟨hpos, rfl⟩ | ⟨hfd, hts, fd, -, hconnect⟩
  · refine ⟨0, ?_⟩
    rw [carbonSend, if_neg (by omega)]
  · refine ⟨fd, ?_⟩
    rw [Client.noted] at hconnect
    rw [carbonSend, if_pos hfd, if_neg hts]
    dsimp only
    rw [hconnect, ok_bind]
    rfl

theorem Inv.foundFd {s : State} (h : Inv s) {fd : ℤ} (hs : s.stage = .found fd) :
    Inv (foundFd s fd) := by
  obtain ⟨hknows, hholds, hnever, -⟩ := h
  rw [hs] at hknows hholds hnever
  obtain ⟨j, hj, hbefore, hts, hclient⟩ := hknows
  have hfd : s.client.carbon.fd ≤ 0 := by
    rw [hclient]
    exact hbefore
  have hlookups : s.lookups ≠ 0 := fun hc => (hnever hc).2 trivial
  rw [held_none hfd] at hholds
  unfold CarbonSockets.foundFd
  by_cases hpos : fd > 0
  · rw [if_pos hpos]
    simp only [carbonConnect, opticsAssert_pos hfd, ok_bind, if_pos hpos]
    refine ⟨⟨hpos, j, hj, .inr ⟨hbefore, hts, fd, hpos, ?_⟩⟩, ?_, fun hc => absurd hc hlookups,
      fun _ _ => hpos.ne'⟩
    · rw [← hclient]
      simp only [carbonConnect, opticsAssert_pos hfd, ok_bind, if_pos hpos]
    · rw [pending, if_neg (by omega)] at hholds
      rw [held_some hpos (by simp)]
      exact hholds
  · have hminus : ¬ (-1 : ℤ) > 0 := by decide
    rw [if_neg hpos]
    simp only [carbonConnect, opticsAssert_pos hfd, ok_bind, if_neg hminus]
    refine ⟨fun j' hj' => ⟨-1, .failure, ?_⟩, ?_, fun hc => absurd hc hlookups, fun _ _ => ?_⟩
    · cases hj.symm.trans hj'
      rw [hclient, carbonSend, if_pos hbefore, if_neg hts]
      dsimp only
      simp only [carbonConnect, opticsAssert_pos hbefore, ok_bind, if_neg hminus]
      rfl
    · rw [held_none (by simp)]
      rw [pending] at hholds
      split_ifs at hholds with hneg
      · exact hholds
      · -- descriptor 0 stays open
        have hzero : fd = 0 := by omega
        rw [hzero] at hholds
        exact hholds.zero
    · simp

theorem Inv.sentLine {s : State} (h : Inv s) (hs : s.stage = .send) {j : Job}
    (hj : s.job = some j) (sent : Sent) : Inv (sentLine s j sent) := by
  obtain ⟨hknows, hholds, hnever, htried⟩ := h
  rw [hs] at hknows hholds hnever htried
  obtain ⟨hpos, j', hj', hclient⟩ := hknows
  cases hj.symm.trans hj'
  cases sent with
  | failure =>
    refine ⟨⟨hpos, j, hj, hclient⟩, ?_, hnever, htried⟩
    show Holds s.table (held .drop s.client.carbon.fd)
    rw [held_some hpos (by simp)] at hholds ⊢
    exact hholds
  | bytes n =>
    refine ⟨fun j' hj' => ?_, ?_, hnever, htried⟩
    · cases hj.symm.trans hj'
      obtain ⟨fd, hsend⟩ := carbonSend_over hclient (.bytes n)
      exact ⟨fd, _, hsend⟩
    · show Holds s.table (held .idle s.client.carbon.fd)
      rw [held_some hpos (by simp)] at hholds ⊢
      exact hholds

theorem Inv.dropped {s : State} (h : Inv s) (hs : s.stage = .drop) :
    Inv { s with table := closeFd s.table s.client.carbon.fd
                 client := Client.dropped s.client, stage := .idle } := by
  obtain ⟨hknows, hholds, hnever, htried⟩ := h
  rw [hs] at hknows hholds hnever htried
  obtain ⟨hpos, j, hj, hclient⟩ := hknows
  refine ⟨fun j' hj' => ?_, ?_, fun hc => ?_, fun _ _ => ?_⟩
  · cases hj.symm.trans hj'
    obtain ⟨fd, hsend⟩ := carbonSend_over hclient .failure
    refine ⟨fd, _, hsend.trans ?_⟩
    simp [sendLine, delivered, Client.dropped]
  · rw [held_some hpos (by simp)] at hholds
    rw [held_none (by simp [Client.dropped]), closeFd, if_neg (by omega)]
    exact hholds.closed (by simp [pending])
  · have hzero := (hnever hc).1
    omega
  · simp [Client.dropped]

/-- The client is freed; one that has never had a connection closes 0. -/
theorem Inv.freed {s : State} (h : Inv s) (hs : s.stage = .free) :
    Inv { s with table := closeFd s.table s.client.carbon.fd, stage := .gone } := by
  obtain ⟨hknows, hholds, hnever, htried⟩ := h
  rw [hs] at hknows hholds hnever htried
  refine ⟨hknows, ?_, hnever, htried⟩
  show Holds (closeFd s.table s.client.carbon.fd) []
  rcases lt_trichotomy s.client.carbon.fd 0 with hneg | hzero | hpos
  · rw [held_none hneg.le] at hholds
    rw [closeFd, if_pos hneg]
    exact hholds
  · -- 0 is closed, whoever has it
    rw [held_none hzero.le] at hholds
    rw [closeFd, if_neg (by omega), hzero]
    refine ⟨by simp, fun fd hfd => ?_⟩
    by_cases hp : fd = 0
    · exact .inr hp
    · rw [Int.toNat_zero, Function.update_of_ne hp] at hfd
      exact hholds.few fd hfd
  · rw [held_some hpos (by simp)] at hholds
    rw [closeFd, if_neg (by omega)]
    exact hholds.closed (by simp [pending])

theorem Inv.connecting {s : State} (h : Inv s) (hs : s.stage.Connecting) :
    s.client.carbon.fd ≤ 0 ∧ s.lookups ≠ 0 := by
  refine ⟨?_, fun hc => (h.never hc).2 hs⟩
  have hknows := h.knows
  have hfd : (∃ j, s.job = some j ∧ j.before.carbon.fd ≤ 0 ∧
      j.before.carbon.lastAttempt ≠ j.ts ∧ s.client = Client.noted j.before j.ts) →
      s.client.carbon.fd ≤ 0 := by
    rintro ⟨j, -, hbefore, -, hclient⟩
    rw [hclient]
    exact hbefore
  cases hstage : s.stage
  case socket | connect | close | found =>
    rw [hstage] at hknows
    exact hfd hknows
  all_goals
    rw [hstage] at hs
    exact absurd hs id

theorem Inv.connectingTo {s : State} (h : Inv s) (hs : s.stage.Connecting) (stage : Stage)
    (hstage : stage.Connecting) {table : ℕ → Option Holder}
    (hholds : Holds s.table (pending s.stage) → Holds table (pending stage)) :
    Inv { s with table := table, stage := stage } := by
  obtain ⟨hfd, hlookups⟩ := h.connecting hs
  obtain ⟨hknows, hold, -, -⟩ := h
  refine ⟨?_, ?_, fun hc => absurd hc hlookups, fun _ hc => absurd hstage hc⟩
  · cases h1 : s.stage
    case socket | connect | close | found =>
      rw [h1] at hknows
      cases stage
      case socket | connect | close | found => exact hknows
      all_goals exact absurd hstage id
    all_goals
      rw [h1] at hs
      exact absurd hs id
  · rw [held_none hfd] at hold ⊢
    exact hholds hold

theorem Inv.lookedUp {s : State} (h : Inv s) (hs : s.stage = .lookup) (stage : Stage)
    (hstage : stage.Connecting) (hnone : pending stage = []) :
    Inv { s with lookups := s.lookups + 1, stage := stage } := by
  obtain ⟨hknows, hholds, -, -⟩ := h
  rw [hs] at hknows hholds
  obtain ⟨j, hj, hbefore, hts, hclient⟩ := hknows
  have hfd : s.client.carbon.fd ≤ 0 := by
    rw [hclient]
    exact hbefore
  refine ⟨?_, ?_, fun hc => absurd hc (Nat.succ_ne_zero _), fun _ hc => absurd hstage hc⟩
  · cases stage
    case socket | connect | close | found => exact ⟨j, hj, hbefore, hts, hclient⟩
    all_goals exact absurd hstage id
  · rw [held_none hfd] at hholds ⊢
    rw [hnone]
    exact hholds

/-- **A step keeps the invariant.** -/
theorem Inv.act {s s' : State} (h : Inv s) {a : Act} (ha : act s a = some s') : Inv s' := by
  cases act_moves ha with
  | begins line ts hs => exact h.beginSend hs line ts
  | unknown hs => exact h.lookedUp hs (.found (-1)) trivial rfl
  | known left hs => exact h.lookedUp hs (.socket left) trivial rfl
  | @refused left hs =>
    exact h.connectingTo (by rw [hs]; trivial) (.socket left) trivial (by rw [hs]; exact id)
  | @opens left fd hs hfree =>
    refine h.connectingTo (by rw [hs]; trivial) (.connect fd left) trivial fun hholds => ?_
    rw [hs] at hholds
    exact hholds.opened fd
  | @connects fd left ok hs =>
    refine h.connectingTo (by rw [hs]; trivial) _ (by split_ifs <;> trivial) fun hholds => ?_
    rw [hs] at hholds
    split_ifs
    · rw [pending, if_neg (by omega)]
      exact hholds
    · exact hholds
  | @closes fd left hs =>
    refine h.connectingTo (by rw [hs]; trivial) (.socket left) trivial fun hholds => ?_
    rw [hs] at hholds
    rw [closeFd, if_neg (by omega)]
    exact hholds.closed (by simp)
  | drops hs => exact h.dropped hs
  | frees hs => exact h.freed hs
  | exhausted hs =>
    refine h.connectingTo (by rw [hs]; trivial) (.found (-1)) trivial fun hholds => ?_
    rw [hs] at hholds
    exact hholds
  | finds hs => exact h.foundFd hs
  | sends sent hs hj => exact h.sentLine hs hj sent
  | retires hs =>
    obtain ⟨hknows, hholds, hnever, htried⟩ := h
    rw [hs] at hknows hholds hnever htried
    exact ⟨hknows, hholds, hnever, htried⟩
  | othersOpen fd hfree =>
    exact ⟨h.knows, h.holds.others (by rw [hfree]; simp) (by simp), h.never, h.tried⟩
  | othersClose fd hopen =>
    exact ⟨h.knows, h.holds.others (by rw [hopen]; simp) (by simp), h.never, h.tried⟩

/-- **The client calls on descriptors of its own**, but for the `close(0)` of a client that has
never looked its host up. -/
theorem Inv.own {s : State} (h : Inv s) {fd : ℤ} (hcall : callsOn s = some fd) (hfd : 0 ≤ fd) :
    s.table fd.toNat = some .client ∨ s.stage = .free ∧ fd = 0 := by
  have hmine := h.holds.mine
  have hknows := h.knows
  have hpending {n : ℕ} (hconnecting : s.stage.Connecting) (hn : n ∈ pending s.stage) :
      s.table n = some .client := by
    refine hmine n ?_
    rwa [held_none (h.connecting hconnecting).1]
  have hconnection (hpos : 0 < s.client.carbon.fd) (hgone : s.stage ≠ .gone) :
      s.table s.client.carbon.fd.toNat = some .client := by
    refine hmine _ ?_
    rw [held_some hpos hgone]
    exact List.mem_cons_self
  cases hs : s.stage
  all_goals simp only [callsOn, hs] at hcall
  case connect n left =>
    cases hcall
    exact .inl (hpending (by rw [hs]; trivial) (by simp [hs, pending]))
  case close n left =>
    cases hcall
    exact .inl (hpending (by rw [hs]; trivial) (by simp [hs, pending]))
  case send | drop =>
    cases hcall
    rw [hs] at hknows
    exact .inl (hconnection hknows.1 (by simp [hs]))
  case free =>
    cases hcall
    rcases hfd.lt_or_eq with hpos | hzero
    · exact .inl (hconnection hpos (by simp [hs]))
    · exact .inr ⟨rfl, hzero.symm⟩
  all_goals cases hcall

/-! ### Descriptor 0 -/

/-- What a step does to the descriptors, and whether the client is gone behind it. -/
inductive Turned (s : State) (a : Act) (s' : State) : Prop
  | kept (h : s'.table = s.table) (hgone : s'.stage = .gone ↔ s.stage = .gone)
  | opened {fd : ℕ} {holder : Holder} (hfree : s.table fd = none)
      (h : s'.table = Function.update s.table fd (some holder))
      (hgone : s'.stage = .gone ↔ s.stage = .gone) (hclient : holder = .client → s.stage ≠ .gone)
  | others {fd : ℕ} (ha : a = .othersClose fd) (h : s'.table = Function.update s.table fd none)
      (hgone : s'.stage = .gone ↔ s.stage = .gone)
  | closed {fd : ℤ} (hcall : callsOn s = some fd) (h : s'.table = closeFd s.table fd)
      (hgone : s'.stage = .gone ↔ s.stage = .free)

theorem act_turned {s s' : State} {a : Act} (h : act s a = some s') : Turned s a s' := by
  cases act_moves h with
  | begins line ts hs =>
    unfold beginSend
    dsimp only
    split_ifs <;> exact .kept rfl (by simp [hs])
  | connects ok hs => exact .kept rfl (by cases ok <;> simp [hs])
  | opens fd hs hfree => exact .opened hfree rfl (by simp [hs]) (by simp [hs])
  | @closes fd left hs =>
    exact .closed (show callsOn s = some (fd : ℤ) by simp [callsOn, hs]) rfl (by simp [hs])
  | drops hs => exact .closed (by simp [callsOn, hs]) rfl (by simp [hs])
  | frees hs => exact .closed (by simp [callsOn, hs]) rfl (by simp [hs])
  | finds hs =>
    unfold foundFd
    split <;> exact .kept rfl (by simp [hs])
  | sends sent hs hj => cases sent <;> exact .kept rfl (by simp [sentLine, hs])
  | unknown hs => exact .kept rfl (by simp [hs])
  | known left hs => exact .kept rfl (by simp [hs])
  | refused hs => exact .kept rfl (by simp [hs])
  | exhausted hs => exact .kept rfl (by simp [hs])
  | retires hs => exact .kept rfl (by simp [hs])
  | othersOpen fd hfree => exact .opened hfree rfl Iff.rfl (by simp)
  | othersClose fd hopen => exact .others rfl rfl Iff.rfl

/-- Descriptor 0 is somebody else's as long as the client is there. -/
structure Taken (s : State) : Prop where
  others : s.stage ≠ .gone → s.table 0 = some .others
  never : s.table 0 ≠ some .client

theorem Taken.of_same {s s' : State} (h : Taken s) (htable : s'.table 0 = s.table 0)
    (hgone : s'.stage ≠ .gone → s.stage ≠ .gone) : Taken s' :=
  ⟨fun hs => htable.trans (h.others (hgone hs)), by rw [htable]; exact h.never⟩

theorem Taken.act {s s' : State} (h : Taken s) (hi : Inv s) {a : Act} (hkeeps : a ≠ .othersClose 0)
    (ha : act s a = some s') : Taken s' := by
  cases act_turned ha with
  | kept htable hgone => exact h.of_same (by rw [htable]) (not_congr hgone).mp
  | @opened fd holder hfree htable hgone hclient =>
    by_cases hfd : (0 : ℕ) = fd
    · -- 0 was free, so that the client is gone
      subst hfd
      have hs : s.stage = .gone := by
        by_contra hc
        rw [h.others hc] at hfree
        cases hfree
      refine ⟨fun hc => absurd (hgone.mpr hs) hc, ?_⟩
      rw [htable, Function.update_self]
      intro hc
      cases hc
      exact hclient rfl hs
    · exact h.of_same (by rw [htable, Function.update_of_ne hfd]) (not_congr hgone).mp
  | @others fd ha htable hgone =>
    have hfd : (0 : ℕ) ≠ fd := fun hc => hkeeps (by rw [ha, hc])
    exact h.of_same (by rw [htable, Function.update_of_ne hfd]) (not_congr hgone).mp
  | @closed fd hcall htable hgone =>
    have hs : s.stage ≠ .gone := by
      intro hc
      simp [callsOn, hc] at hcall
    by_cases hneg : fd < 0
    · exact h.of_same (by rw [htable, closeFd, if_pos hneg]) fun _ => hs
    · rw [closeFd, if_neg hneg] at htable
      rcases hi.own hcall (not_lt.mp hneg) with hmine | ⟨hfree, rfl⟩
      · have hfd : (0 : ℕ) ≠ fd.toNat := by
          intro hc
          rw [← hc, h.others hs] at hmine
          cases hmine
        exact h.of_same (by rw [htable, Function.update_of_ne hfd]) fun _ => hs
      · refine ⟨fun hc => absurd (hgone.mpr hfree) hc, ?_⟩
        rw [htable]
        simp

/-! ### Runs -/

/-- The client has one descriptor at a time, 0 apart. -/
theorem Inv.one {s : State} (h : Inv s) {p q : ℕ} (hp : s.table p = some .client)
    (hq : s.table q = some .client) (hp0 : p ≠ 0) (hq0 : q ≠ 0) : p = q := by
  have hlen : (held s.stage s.client.carbon.fd).length ≤ 1 := by
    by_cases hfd : s.client.carbon.fd ≤ 0
    · rw [held_none hfd]
      exact pending_length s.stage
    · by_cases hgone : s.stage = .gone
      · simp [hgone, held]
      · have hnot : ¬ s.stage.Connecting := fun hc => hfd (h.connecting hc).1
        rw [held_some (not_le.mp hfd) hgone, pending_of_not hnot]
        simp
  have hp' := (h.holds.few p hp).resolve_right hp0
  have hq' := (h.holds.few q hq).resolve_right hq0
  generalize held s.stage s.client.carbon.fd = l at hlen hp' hq'
  obtain _ | ⟨x, _ | ⟨y, l⟩⟩ := l
  · cases hp'
  · rw [List.mem_singleton.mp hp', List.mem_singleton.mp hq']
  · simp at hlen

/-- What holds in every run. -/
structure Safe (s : State) : Prop where
  /-- the assertion of `carbon_connect` never fires -/
  asserts : s.stage ≠ .aborted
  own : ∀ fd, callsOn s = some fd → 0 ≤ fd →
    s.table fd.toNat = some .client ∨ s.stage = .free ∧ fd = 0
  /-- who has never looked the host up has 0 for a connection, and nobody else -/
  zero : s.stage = .free → (s.client.carbon.fd = 0 ↔ s.lookups = 0)
  one : ∀ p q, s.table p = some .client → s.table q = some .client → p ≠ 0 → q ≠ 0 → p = q
  gone : s.stage = .gone → ∀ p, s.table p = some .client → p = 0
  /-- a call that is over was one of `carbon_send` as a whole -/
  sends : s.stage = .idle → ∀ j, s.job = some j → ∃ fd sent,
    carbonSend j.before ⟨j.line, j.ts, fd, sent⟩ = .ok s.client

theorem Inv.safe {s : State} (h : Inv s) : Safe s where
  asserts hs := by
    have hknows := h.knows
    rw [hs] at hknows
    exact hknows
  own _ hcall hfd := h.own hcall hfd
  zero hs := by
    refine ⟨fun hzero => ?_, fun hnever => (h.never hnever).1⟩
    by_contra hc
    exact h.tried hc (by simp [hs, Stage.Connecting]) hzero
  one _ _ hp hq hp0 hq0 := h.one hp hq hp0 hq0
  gone hs p hp := by
    have hfew := h.holds.few p hp
    rw [hs] at hfew
    simpa [held] using hfew
  sends hs := by
    have hknows := h.knows
    rw [hs] at hknows
    exact hknows

/-- What holds besides if nobody else ever closes 0, which is open. -/
structure Tidy (s : State) : Prop where
  kept : s.stage ≠ .gone → s.table 0 = some .others
  /-- nothing is left open by a client that has been freed -/
  left : s.stage = .gone → ∀ p, s.table p ≠ some .client
  /-- freeing the client closes 0 if it has never looked its host up, and only then -/
  frees : ∀ s', s.stage = .free → act s .close = some s' →
    (s'.table 0 = some .others ↔ s.lookups ≠ 0)

theorem Taken.tidy {s : State} (h : Taken s) (hi : Inv s) : Tidy s where
  kept := h.others
  left hs p hp := by
    have hzero := hi.safe.gone hs p hp
    rw [hzero] at hp
    exact h.never hp
  frees s' hs hact := by
    have hothers := h.others (by simp [hs])
    have hiff := hi.safe.zero hs
    simp only [CarbonSockets.act, hs] at hact
    cases hact
    by_cases hneg : s.client.carbon.fd < 0
    · rw [closeFd, if_pos hneg]
      exact iff_of_true hothers fun hc => by omega
    · rw [closeFd, if_neg hneg]
      by_cases hzero : s.client.carbon.fd = 0
      · simp [hzero, hiff.mp hzero]
      · have hne : (0 : ℕ) ≠ s.client.carbon.fd.toNat := by omega
        dsimp only
        rw [Function.update_of_ne hne]
        exact iff_of_true hothers fun hc => hzero (hiff.mpr hc)

/-- A step in a process that keeps 0 open. -/
def StepKeeping (s s' : State) : Prop := ∃ a, a ≠ Act.othersClose 0 ∧ act s a = some s'

/-- **The sockets of the carbon client.** In every run, whatever the system calls return and the rest
of the process does: the client calls on descriptors of its own, has one at a time and leaves none
behind, where 0 is open from the beginning and nobody else closes it; but a client that has never
looked its host up closes 0 when it is freed, whoever has it. -/
theorem carbon_sockets : (∀ s, Reachable Start Step s → Safe s) ∧
    ∀ s, Reachable (fun s => Start s ∧ s.table 0 = some .others) StepKeeping s → Tidy s := by
  constructor
  · intro s hs
    refine Inv.safe (hs.invariant (fun s hs => inv_start hs) ?_)
    rintro s s' hi ⟨a, ha⟩
    exact hi.act ha
  · intro s hs
    have hboth : Inv s ∧ Taken s := by
      refine hs.invariant (I := fun s => Inv s ∧ Taken s) ?_ ?_
      · rintro s ⟨hstart, hothers⟩
        exact ⟨inv_start hstart, fun _ => hothers, by simp [hothers]⟩
      · rintro s s' ⟨hi, ht⟩ ⟨a, hkeeps, ha⟩
        exact ⟨hi.act ha, ht.act hi hkeeps ha⟩
    exact hboth.2.tidy hboth.1

/-- Steps one after the other. -/
def runActs : List Act → State → Option State
  | [], s => some s
  | a :: acts, s => do
    let s ← act s a
    runActs acts s

theorem reachable_runActs {start : State → Prop} {step : State → State → Prop} :
    ∀ {acts : List Act} {s s' : State},
      (∀ a ∈ acts, ∀ s s', act s a = some s' → step s s') → Reachable start step s →
        runActs acts s = some s' → Reachable start step s'
  | [], s, s', _, hs, h => by
    cases h
    exact hs
  | a :: acts, s, s', hsteps, hs, h => by
    rw [List.forall_mem_cons] at hsteps
    obtain ⟨s1, hact, h⟩ := Option.bind_eq_some_iff.mp h
    exact reachable_runActs hsteps.2 (hs.tail (hsteps.1 s s1 hact)) h

/-- A process with its standard streams. -/
def streams : State :=
  ⟨fun fd => if fd < 3 then some .others else none, Client.start, .idle, 0, none⟩

theorem start_streams : Start streams := by
  refine ⟨fun fd => ?_, rfl, rfl, rfl, rfl⟩
  simp only [streams]
  split_ifs <;> simp

/-- A line is sent over a new connection, and the client freed. -/
def lineActs : List Act :=
  [.begin [120] 5, .addresses (some 1), .socket (some 3), .connect true, .found, .send (.bytes 1),
    .free, .close]

/-- The socket is closed, and standard input is not. -/
theorem carbon_sockets_line : ∃ s, runActs lineActs streams = some s ∧ Safe s ∧ Tidy s ∧
    s.table 0 = some .others ∧ s.table 3 = none := by
  obtain ⟨s, hs, hzero, hthree⟩ : ∃ s, runActs lineActs streams = some s ∧
      s.table 0 = some .others ∧ s.table 3 = none := ⟨_, rfl, rfl, rfl⟩
  refine ⟨s, hs, carbon_sockets.1 s ?_, carbon_sockets.2 s ?_, hzero, hthree⟩
  · exact reachable_runActs (fun a _ s s' ha => ⟨a, ha⟩) (.of_start start_streams) hs
  · refine reachable_runActs (fun a hmem s s' ha => ⟨a, ?_, ha⟩)
      (.of_start ⟨start_streams, rfl⟩) hs
    rintro rfl
    simp [lineActs] at hmem

/-- Standard input is closed with a client that has had nothing to send. -/
example : ∃ s, runActs [.free, .close] streams = some s ∧ s.table 0 = none := ⟨_, rfl, rfl⟩

end Optics.CarbonSockets
