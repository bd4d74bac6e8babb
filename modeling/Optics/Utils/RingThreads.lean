import Optics.Lib.Runs
import Mathlib.Logic.Function.Basic
import Mathlib.Data.List.Basic

/-! # The ring log with threads

`ring_log` loads the address of its ring's data and writes there; `ring_dump` exchanges the data of
all rings for new data, prints the old one and frees it. Nothing keeps a thread from writing to an
address that it has loaded before the exchange.

* `Inv.act`: the invariant, for runs in which no ring is taken that is being written to;
* `ring_threads`: in these runs nobody writes to data that has been freed; in others one can. -/

namespace Optics.Utils.RingThreads

open Optics.Lib.Runs

variable {ι : Type}

/-! ### The system -/

/-- Where a thread is. -/
inductive Stage where
  | idle
  /-- `ring_log`: the address of the data has been loaded -/
  | writing (data : ℕ)
  deriving DecidableEq

/-- Where `ring_dump` is. -/
inductive Dump (ι : Type) where
  | idle
  /-- under `ring_lock`: rings to be taken, and what has been taken -/
  | taking (left : List ι) (taken : List ℕ)
  | freeing (taken : List ℕ)

/-- The rings from `ring_head` on, by their threads, and the data of each. Data is numbered as it is
made. -/
structure State (ι : Type) where
  rings : List ι
  data : ι → ℕ
  made : ℕ
  freed : List ℕ
  stage : ι → Stage
  dump : Dump ι

inductive Act (ι : Type) where
  /-- `ring_get` makes a ring -/
  | ring (i : ι)
  | load (i : ι)
  | write (i : ι)
  /-- `ring_dump` begins -/
  | lock
  | take
  /-- everything has been taken and printed -/
  | print
  | free

/-- A step. -/
def act [DecidableEq ι] (s : State ι) : Act ι → Option (State ι)
  | .ring i =>
    match s.dump with
    | .idle =>
      if i ∈ s.rings then none
      else some { s with
        rings := i :: s.rings, data := Function.update s.data i s.made, made := s.made + 1 }
    | _ => none
  | .load i =>
    if s.stage i = .idle ∧ i ∈ s.rings then
      some { s with stage := Function.update s.stage i (.writing (s.data i)) }
    else none
  | .write i =>
    if s.stage i = .idle then none
    else some { s with stage := Function.update s.stage i .idle }
  | .lock =>
    match s.dump with
    | .idle => some { s with dump := .taking s.rings [] }
    | _ => none
  | .take =>
    match s.dump with
    | .taking (i :: left) taken => some { s with
        data := Function.update s.data i s.made, made := s.made + 1
        dump := .taking left (s.data i :: taken) }
    | _ => none
  | .print =>
    match s.dump with
    | .taking [] taken => some { s with dump := .freeing taken }
    | _ => none
  | .free =>
    match s.dump with
    | .freeing [] => some { s with dump := .idle }
    | .freeing (data :: taken) => some { s with freed := data :: s.freed, dump := .freeing taken }
    | _ => none

/-- No thread has a ring. -/
structure Start (s : State ι) : Prop where
  rings : s.rings = []
  freed : s.freed = []
  stage : ∀ i, s.stage i = .idle
  dump : s.dump = .idle

def Step [DecidableEq ι] (s s' : State ι) : Prop := ∃ a, act s a = some s'

/-- The step takes no ring that is being written to. -/
def Quiet (s : State ι) : Act ι → Prop
  | .take => ∀ i left taken, s.dump = .taking (i :: left) taken → s.stage i = .idle
  | _ => True

def QuietStep [DecidableEq ι] (s s' : State ι) : Prop := ∃ a, Quiet s a ∧ act s a = some s'

/-- Nobody is about to write to data that has been freed. -/
def Safe (s : State ι) : Prop := ∀ i data, s.stage i = .writing data → data ∉ s.freed

/-! ### The invariant -/

/-- The data that a dump has in its hands. -/
def Dump.taken : Dump ι → List ℕ
  | .idle => []
  | .taking _ taken => taken
  | .freeing taken => taken

/-- The rings that a dump is still to take. -/
def Dump.left : Dump ι → List ι
  | .taking left _ => left
  | _ => []

/-- **The invariant.** -/
structure Inv (s : State ι) : Prop where
  writing : ∀ i data, s.stage i = .writing data → i ∈ s.rings ∧ s.data i = data
  made : ∀ i ∈ s.rings, s.data i < s.made
  own : ∀ i ∈ s.rings, ∀ j ∈ s.rings, s.data i = s.data j → i = j
  /-- the data of a ring is neither freed nor taken -/
  kept : ∀ i ∈ s.rings, s.data i ∉ s.freed ∧ s.data i ∉ s.dump.taken
  old : ∀ data, data ∈ s.freed ∨ data ∈ s.dump.taken → data < s.made
  left : s.dump.left ⊆ s.rings

theorem inv_start {s : State ι} (h : Start s) : Inv s := by
  obtain ⟨hrings, hfreed, hstage, hdump⟩ := h
  refine ⟨fun i data hi => ?_, ?_, ?_, ?_, ?_, ?_⟩
  · rw [hstage i] at hi
    cases hi
  all_goals simp [hrings, hfreed, hdump, Dump.taken, Dump.left]

theorem Inv.safe {s : State ι} (h : Inv s) : Safe s := by
  intro i data hi
  obtain ⟨hmem, rfl⟩ := h.writing i data hi
  exact (h.kept i hmem).1

/-- A ring gets new data; nobody is writing to what it had. -/
theorem Inv.renew [DecidableEq ι] {s : State ι} (h : Inv s) {i : ι} (hi : s.stage i = .idle)
    {rings : List ι} (hrings : ∀ j, j ∈ rings ↔ j = i ∨ j ∈ s.rings) {dump : Dump ι}
    (hleft : dump.left ⊆ rings)
    (htaken : ∀ data ∈ dump.taken, data ∈ s.dump.taken ∨ i ∈ s.rings ∧ data = s.data i) :
    Inv { s with rings := rings, data := Function.update s.data i s.made, made := s.made + 1
                 dump := dump } := by
  have hother : ∀ j ∈ rings, j ≠ i → j ∈ s.rings ∧ Function.update s.data i s.made j = s.data j :=
    fun j hj hne => ⟨((hrings j).mp hj).resolve_left hne, Function.update_of_ne hne _ _⟩
  have hold : ∀ data, data ∈ s.freed ∨ data ∈ dump.taken → data < s.made := by
    rintro data (hd | hd)
    · exact h.old data (.inl hd)
    · rcases htaken data hd with hd | ⟨hmem, rfl⟩
      · exact h.old data (.inr hd)
      · exact h.made i hmem
  refine ⟨fun j data hj => ?_, fun j hj => ?_, fun j hj k hk heq => ?_, fun j hj => ?_,
    fun data hd => Nat.lt_succ_of_lt (hold data hd), hleft⟩
  · have hne : j ≠ i := by
      rintro rfl
      dsimp only at hj
      rw [hi] at hj
      cases hj
    obtain ⟨hmem, hdata⟩ := h.writing j data hj
    exact ⟨(hrings j).mpr (.inr hmem), (Function.update_of_ne hne _ _).trans hdata⟩
  · dsimp only
    by_cases hne : j = i
    · rw [hne, Function.update_self]
      exact Nat.lt_succ_self _
    · rw [(hother j hj hne).2]
      exact Nat.lt_succ_of_lt (h.made j (hother j hj hne).1)
  · dsimp only at heq
    by_cases hji : j = i <;> by_cases hki : k = i
    · rw [hji, hki]
    · rw [hji, Function.update_self, (hother k hk hki).2] at heq
      exact absurd heq (Nat.ne_of_gt (h.made k (hother k hk hki).1))
    · rw [hki, Function.update_self, (hother j hj hji).2] at heq
      exact absurd heq (Nat.ne_of_lt (h.made j (hother j hj hji).1))
    · rw [(hother j hj hji).2, (hother k hk hki).2] at heq
      exact h.own j (hother j hj hji).1 k (hother k hk hki).1 heq
  · dsimp only
    by_cases hne : j = i
    · rw [hne, Function.update_self]
      exact ⟨fun hc => Nat.lt_irrefl _ (hold _ (.inl hc)),
        fun hc => Nat.lt_irrefl _ (hold _ (.inr hc))⟩
    · obtain ⟨hmem, hdata⟩ := hother j hj hne
      rw [hdata]
      refine ⟨(h.kept j hmem).1, fun hc => ?_⟩
      rcases htaken _ hc with hc | ⟨hi', heq⟩
      · exact (h.kept j hmem).2 hc
      · exact hne (h.own j hmem i hi' heq)

theorem Inv.restage [DecidableEq ι] {s : State ι} (h : Inv s) {i : ι} {stage : Stage}
    (hstage : ∀ data, stage = .writing data → i ∈ s.rings ∧ s.data i = data) :
    Inv { s with stage := Function.update s.stage i stage } := by
  refine ⟨fun j data hj => ?_, h.made, h.own, h.kept, h.old, h.left⟩
  dsimp only at hj
  by_cases hji : j = i
  · rw [hji, Function.update_self] at hj
    rw [hji]
    exact hstage data hj
  · rw [Function.update_of_ne hji] at hj
    exact h.writing j data hj

theorem Inv.redump {s : State ι} (h : Inv s) {freed : List ℕ} {dump : Dump ι}
    (hdata : ∀ data, data ∈ freed ∨ data ∈ dump.taken → data ∈ s.freed ∨ data ∈ s.dump.taken)
    (hleft : dump.left ⊆ s.rings) : Inv { s with freed := freed, dump := dump } := by
  refine ⟨h.writing, h.made, h.own, fun i hi => ?_, fun data hd => h.old data (hdata data hd), hleft⟩
  have hnot : ¬ (s.data i ∈ s.freed ∨ s.data i ∈ s.dump.taken) := not_or.mpr (h.kept i hi)
  exact not_or.mp fun hc => hnot (hdata _ hc)

/-- **A step keeps the invariant** if it takes no ring that is being written to. -/
theorem Inv.act [DecidableEq ι] {s s' : State ι} (h : Inv s) {a : Act ι} (hq : Quiet s a)
    (ha : act s a = some s') : Inv s' := by
  cases a with
  | ring i =>
    simp only [RingThreads.act] at ha
    split at ha
    · split_ifs at ha with hmem
      cases ha
      have hidle : s.stage i = .idle := by
        cases hs : s.stage i with
        | idle => rfl
        | writing data => exact absurd (h.writing i data hs).1 hmem
      exact h.renew hidle (fun j => List.mem_cons)
        (List.Subset.trans h.left (List.subset_cons_self _ _)) fun data hd => .inl hd
    · cases ha
  | load i =>
    simp only [RingThreads.act] at ha
    split_ifs at ha with hload
    cases ha
    refine h.restage fun data hd => ?_
    cases hd
    exact ⟨hload.2, rfl⟩
  | write i =>
    simp only [RingThreads.act] at ha
    split_ifs at ha
    cases ha
    exact h.restage fun data hd => nomatch hd
  | lock =>
    simp only [RingThreads.act] at ha
    split at ha <;> cases ha
    refine h.redump (fun data hd => ?_) (List.Subset.refl _)
    exact .inl (hd.resolve_right List.not_mem_nil)
  | take =>
    simp only [RingThreads.act] at ha
    split at ha
    · rename_i i left taken hd
      cases ha
      obtain ⟨hmem, hleft⟩ : i ∈ s.rings ∧ left ⊆ s.rings := by
        have hleft := h.left
        rw [hd, Dump.left, List.cons_subset] at hleft
        exact hleft
      refine h.renew (hq i left taken hd)
        (fun j => ⟨.inr, fun hj => hj.elim (fun heq => heq ▸ hmem) id⟩) hleft fun data hdata => ?_
      rcases List.mem_cons.mp hdata with rfl | hdata
      · exact .inr ⟨hmem, rfl⟩
      · rw [hd]
        exact .inl hdata
    · cases ha
  | print =>
    simp only [RingThreads.act] at ha
    split at ha
    · rename_i taken hd
      cases ha
      exact h.redump (fun data hdata => by rw [hd]; exact hdata) (List.nil_subset _)
    · cases ha
  | free =>
    simp only [RingThreads.act] at ha
    split at ha
    · rename_i hd
      cases ha
      exact h.redump (fun data hdata => by rw [hd]; exact hdata) (List.nil_subset _)
    · rename_i first taken hd
      cases ha
      refine h.redump (fun data hdata => ?_) (List.nil_subset _)
      rw [List.mem_cons] at hdata
      rw [hd, Dump.taken, List.mem_cons]
      tauto
    · cases ha

/-! ### Runs -/

/-- Steps one after the other. -/
def runActs [DecidableEq ι] : List (Act ι) → State ι → Option (State ι)
  | [], s => some s
  | a :: acts, s => do
    let s ← act s a
    runActs acts s

theorem reachable_runActs [DecidableEq ι] : ∀ {acts : List (Act ι)} {s s' : State ι},
    Reachable Start Step s → runActs acts s = some s' → Reachable Start Step s'
  | [], s, s', hs, h => by
    cases h
    exact hs
  | a :: acts, s, s', hs, h => by
    obtain ⟨s1, hact, h⟩ := Option.bind_eq_some_iff.mp h
    exact reachable_runActs (hs.tail ⟨a, hact⟩) h

/-- A process that has not logged anything. -/
def noRings : State Unit := ⟨[], fun _ => 0, 0, [], fun _ => .idle, .idle⟩

theorem start_noRings : Start noRings := ⟨rfl, rfl, fun _ => rfl, rfl⟩

/-- A thread loads the address, and a dump takes the ring and frees its data. -/
def lateWrite : List (Act Unit) := [.ring (), .load (), .lock, .take, .print, .free]

/-- **The ring log with threads**: data that has been freed can be written to, but not in a run in
which no ring is taken that is being written to. -/
theorem ring_threads : (∃ s : State Unit, Reachable Start Step s ∧ ¬ Safe s) ∧
    ∀ {ι : Type} [DecidableEq ι] (s : State ι), Reachable Start QuietStep s → Safe s := by
  constructor
  · obtain ⟨s', hrun, hstage, hfreed⟩ : ∃ s', runActs lateWrite noRings = some s' ∧
        s'.stage () = .writing 0 ∧ s'.freed = [0] := ⟨_, rfl, rfl, rfl⟩
    refine ⟨s', reachable_runActs (.of_start start_noRings) hrun, fun hsafe => ?_⟩
    exact hsafe () 0 hstage (by rw [hfreed]; exact List.mem_cons_self)
  · intro ι _ s hs
    refine Inv.safe (hs.invariant (fun s hs => inv_start hs) ?_)
    rintro s s' hi ⟨a, hq, ha⟩
    exact hi.act hq ha

/-- A message is written before the ring is taken. -/
theorem ring_threads_quiet : ∃ s : State Unit, s.freed = [0] ∧ s.data () = 1 ∧ Safe s := by
  have hlog : Reachable Start QuietStep _ :=
    (((Reachable.of_start start_noRings).tail ⟨.ring (), trivial, rfl⟩).tail
      ⟨.load (), trivial, rfl⟩).tail ⟨.write (), trivial, rfl⟩
  have hdump : Reachable Start QuietStep _ :=
    (((hlog.tail ⟨.lock, trivial, rfl⟩).tail ⟨.take, fun _ _ _ _ => rfl, rfl⟩).tail
      ⟨.print, trivial, rfl⟩).tail ⟨.free, trivial, rfl⟩
  exact ⟨_, rfl, rfl, ring_threads.2 _ hdump⟩

end Optics.Utils.RingThreads
