import Optics.Base
import Optics.Lib.Rings
import Optics.Lib.Sorting
import Mathlib.Data.List.GetD

/-! # The ring log

`ring_log` and `ring_dump` of `log.c`, one call after the other: each thread writes its messages
round a ring of its own, and a dump takes what is in the rings, sorts it by the time of writing and
prints it. Ticks are given out from 0 on, and 0 also stands for an empty slot.

`ring_dump_latest`: a dump prints what each thread has written since the last dump, as far as it has
room, but never the first message of all; the latest first, as long as an `int` can tell the ticks
from 0. -/

namespace Optics.Utils.RingLogs

open Optics.Base Optics.Lib.Rings Optics.Lib.Sorting

/-! ### The functions -/

/-- `ring_size`. -/
def ringSize : ℕ := 2 ^ 14

/-- `struct log_msg`. -/
structure LogMsg where
  tid : ℕ
  tick : ℕ
  title : List UInt8
  msg : List UInt8

/-- A slot that `calloc` has made. -/
def LogMsg.zero : LogMsg := ⟨0, 0, [], []⟩

/-- `struct log_ring`, of the thread `owner`. -/
structure LogRing where
  owner : ℕ
  pos : ℕ
  data : ℕ → LogMsg

/-- The counter of ticks, and the rings from `ring_head` on. -/
structure State where
  ticks : ℕ
  rings : List LogRing

def State.start : State := ⟨0, []⟩

/-- A ring just made. -/
def newRing (tid : ℕ) : LogRing := ⟨tid, 0, fun _ => .zero⟩

/-- `ring_get`: the rings, with one of the thread. -/
def ringGet (tid : ℕ) (rings : List LogRing) : List LogRing :=
  if rings.any (fun ring => ring.owner = tid) then rings else newRing tid :: rings

/-- The message of `ring_log` with the text that `vsnprintf` would give. -/
def logMsg (s : State) (tid : ℕ) (title text : List UInt8) : LogMsg :=
  ⟨tid, s.ticks, title, text.take 127⟩

/-- A message is written to a ring. -/
def LogRing.write (ring : LogRing) (m : LogMsg) : LogRing :=
  { ring with
    pos := w64 (ring.pos + 1)
    data := fun i => if i = ring.pos % ringSize then m else ring.data i }

/-- `ring_log`. -/
def ringLog (s : State) (tid : ℕ) (title text : List UInt8) : State where
  ticks := w64 (s.ticks + 1)
  rings := (ringGet tid s.rings).map fun ring =>
    if ring.owner = tid then ring.write (logMsg s tid title text) else ring

/-- `ring_cmp`: the difference of the ticks, as an `int`. -/
def ringCmp (lhs rhs : LogMsg) : ℤ := ((rhs.tick : ℤ) - lhs.tick).bmod (2 ^ 32)

/-- The slots of all rings. -/
def ringMsgs (rings : List LogRing) : List LogMsg :=
  rings.flatMap fun ring => (List.range ringSize).map ring.data

/-- `ring_dump`: what is printed. -/
def ringDump (s : State) : Outcome (List LogMsg × State) := do
  let msgs ← mergeSort (fun lhs rhs => .ok (ringCmp lhs rhs)) (ringMsgs s.rings)
  .ok (msgs.filter fun m => m.tick ≠ 0,
    { s with rings := s.rings.map fun ring => { ring with data := fun _ => .zero } })

/-- A run in which `n` messages are written, and those since the last dump, the latest first. -/
inductive Run : ℕ → State → List LogMsg → Prop
  | start : Run 0 .start []
  | log {n : ℕ} {s : State} {since : List LogMsg} (h : Run n s since) (tid : ℕ)
      (title text : List UInt8) :
      Run (n + 1) (ringLog s tid title text) (logMsg s tid title text :: since)
  | dump {n : ℕ} {s s' : State} {since out : List LogMsg} (h : Run n s since)
      (hd : ringDump s = .ok (out, s')) : Run n s' []

/-! ### The invariant -/

/-- What a thread has written. -/
def ofThread (tid : ℕ) (since : List LogMsg) : List LogMsg := since.filter fun m => m.tid = tid

/-- **The invariant.** -/
structure Inv (s : State) (since : List LogMsg) : Prop where
  ring : ∀ ring ∈ s.rings,
    Holds ringSize .zero ring.data ring.pos (ofThread ring.owner since)
  once : (s.rings.map LogRing.owner).Nodup
  all : ∀ m ∈ since, m.tid ∈ s.rings.map LogRing.owner
  ticks : ∀ m ∈ since, m.tick < s.ticks
  latest : since.Pairwise fun m m' => m'.tick < m.tick

theorem ringGet_owner (tid : ℕ) (rings : List LogRing) :
    tid ∈ (ringGet tid rings).map LogRing.owner := by
  unfold ringGet
  split_ifs with h
  · obtain ⟨ring, hring, hown⟩ := List.any_eq_true.mp h
    exact List.mem_map.mpr ⟨ring, hring, by simpa using hown⟩
  · exact List.mem_cons_self

theorem ringGet_subset (tid : ℕ) (rings : List LogRing) : rings ⊆ ringGet tid rings := by
  unfold ringGet
  split_ifs
  · exact List.Subset.refl _
  · exact List.subset_cons_self _ _

theorem Inv.ringGet {s : State} {since : List LogMsg} (h : Inv s since) (tid : ℕ) :
    Inv { s with rings := ringGet tid s.rings } since := by
  unfold RingLogs.ringGet
  split_ifs with hany
  · exact h
  · have hnew : tid ∉ s.rings.map LogRing.owner := by
      intro hc
      obtain ⟨ring, hring, rfl⟩ := List.mem_map.mp hc
      exact hany (List.any_eq_true.mpr ⟨ring, hring, by simp⟩)
    have hnone : ofThread tid since = [] := by
      refine List.filter_eq_nil_iff.mpr fun m hm hc => hnew ?_
      have htid : m.tid = tid := by simpa using hc
      exact htid ▸ h.all m hm
    refine ⟨fun ring hring => ?_, ?_, fun m hm => ?_, h.ticks, h.latest⟩
    · rcases List.mem_cons.mp hring with rfl | hring
      · rw [newRing, hnone]
        exact holds_nil _ _ _
      · exact h.ring ring hring
    · rw [List.map_cons, List.nodup_cons]
      exact ⟨hnew, h.once⟩
    · exact List.mem_cons_of_mem _ (h.all m hm)

theorem ringSize_dvd : ringSize ∣ 2 ^ 64 := by
  unfold ringSize
  exact pow_dvd_pow 2 (by decide)

/-- **A message is written**, and the rings of the other threads stay as they are. -/
theorem Inv.log {s : State} {since : List LogMsg} (h : Inv s since) (hticks : s.ticks + 1 < 2 ^ 64)
    (tid : ℕ) (title text : List UInt8) :
    Inv (ringLog s tid title text) (logMsg s tid title text :: since) := by
  have hget := h.ringGet tid
  have howners : (ringLog s tid title text).rings.map LogRing.owner =
      (RingLogs.ringGet tid s.rings).map LogRing.owner := by
    simp only [ringLog, List.map_map]
    refine List.map_congr_left fun ring _ => ?_
    simp only [Function.comp_apply]
    split_ifs <;> rfl
  refine ⟨fun ring hring => ?_, howners ▸ hget.once, fun m hm => ?_, fun m hm => ?_, ?_⟩
  · obtain ⟨old, hold, rfl⟩ := List.mem_map.mp hring
    have hholds := hget.ring old hold
    by_cases hown : old.owner = tid
    · rw [if_pos hown]
      have hlist : ofThread old.owner (logMsg s tid title text :: since) =
          logMsg s tid title text :: ofThread old.owner since :=
        List.filter_cons_of_pos (by simp [logMsg, hown])
      have hpush := hholds.push (logMsg s tid title text)
      rw [← hlist] at hpush
      exact hpush.congr (Nat.mod_mod_of_dvd _ ringSize_dvd)
    · rw [if_neg hown]
      have hlist : ofThread old.owner (logMsg s tid title text :: since) =
          ofThread old.owner since :=
        List.filter_cons_of_neg (by simp [logMsg, Ne.symm hown])
      rw [hlist]
      exact hholds
  · rw [howners]
    rcases List.mem_cons.mp hm with rfl | hm
    · exact ringGet_owner tid s.rings
    · exact List.map_subset _ (ringGet_subset tid s.rings) (h.all m hm)
  · have hnext : (ringLog s tid title text).ticks = s.ticks + 1 := w64_eq hticks
    rw [hnext]
    rcases List.mem_cons.mp hm with rfl | hm
    · exact Nat.lt_succ_self _
    · exact Nat.lt_succ_of_lt (h.ticks m hm)
  · exact List.pairwise_cons.mpr ⟨fun m hm => h.ticks m hm, h.latest⟩

/-! ### A dump -/

/-- The ticks of two messages differ, unless one is zero. -/
def Differ (m m' : LogMsg) : Prop := m.tick ≠ 0 → m'.tick ≠ 0 → m.tick ≠ m'.tick

theorem differ_symm {m m' : LogMsg} (h : Differ m m') : Differ m' m :=
  fun h1 h2 => Ne.symm (h h2 h1)

section Dump
variable {s : State} {since : List LogMsg}

theorem mem_slots {n : ℕ} {l : List LogMsg} {m : LogMsg} (hm : m.tick ≠ 0) :
    m ∈ (List.range n).map (fun k => l.getD k .zero) ↔ m ∈ l.take n := by
  rw [List.mem_map, List.mem_take_iff_getElem]
  constructor
  · rintro ⟨k, hk, rfl⟩
    rw [List.mem_range] at hk
    by_cases hlt : k < l.length
    · exact ⟨k, by omega, by rw [List.getD_eq_getElem _ _ hlt]⟩
    · rw [List.getD_eq_default _ _ (not_lt.mp hlt)] at hm
      exact absurd rfl hm
  · rintro ⟨k, hk, rfl⟩
    exact ⟨k, List.mem_range.mpr (by omega), List.getD_eq_getElem _ _ (by omega)⟩

theorem pairwise_slots {n : ℕ} {l : List LogMsg} (h : l.Pairwise fun m m' => m'.tick < m.tick) :
    ((List.range n).map fun k => l.getD k .zero).Pairwise Differ := by
  refine List.pairwise_map.mpr (List.pairwise_lt_range.imp ?_)
  intro k k' hlt hk hk'
  have hlen : k' < l.length := by
    by_contra hc
    rw [List.getD_eq_default _ _ (not_lt.mp hc)] at hk'
    exact hk' rfl
  rw [List.getD_eq_getElem _ _ (hlt.trans hlen), List.getD_eq_getElem _ _ hlen]
  exact (List.pairwise_iff_getElem.mp h k k' _ hlen hlt).ne'

theorem Inv.latest_of (h : Inv s since) (tid : ℕ) :
    (ofThread tid since).Pairwise fun m m' => m'.tick < m.tick :=
  h.latest.sublist List.filter_sublist

theorem Inv.mem_ringMsgs (h : Inv s since) {m : LogMsg} (hm : m.tick ≠ 0) :
    m ∈ ringMsgs s.rings ↔ m ∈ (ofThread m.tid since).take ringSize := by
  rw [ringMsgs, List.mem_flatMap]
  constructor
  · rintro ⟨ring, hring, hmem⟩
    have htake := (mem_slots hm).mp ((h.ring ring hring).slots.subset hmem)
    have hown : m.tid = ring.owner := by
      simpa using (List.mem_filter.mp (List.mem_of_mem_take htake)).2
    rwa [hown]
  · intro htake
    have hsince := (List.mem_filter.mp (List.mem_of_mem_take htake)).1
    obtain ⟨ring, hring, hown⟩ := List.mem_map.mp (h.all m hsince)
    refine ⟨ring, hring, (h.ring ring hring).slots.symm.subset ((mem_slots hm).mpr ?_)⟩
    rwa [hown]

theorem Inv.pairwise_ringMsgs (h : Inv s since) : (ringMsgs s.rings).Pairwise Differ := by
  refine List.pairwise_flatMap.mpr ⟨fun ring hring => ?_, ?_⟩
  · exact ((h.ring ring hring).slots.symm.pairwise_iff differ_symm).mp
      (pairwise_slots (h.latest_of ring.owner))
  · have hrings : s.rings.Pairwise fun r r' => r.owner ≠ r'.owner := List.pairwise_map.mp h.once
    refine hrings.imp_of_mem fun {r r'} hr hr' hne m hm m' hm' h1 h2 heq => hne ?_
    have hmem := (mem_slots h1).mp ((h.ring r hr).slots.subset hm)
    have hmem' := (mem_slots h2).mp ((h.ring r' hr').slots.subset hm')
    obtain ⟨hsince, hown⟩ := List.mem_filter.mp (List.mem_of_mem_take hmem)
    obtain ⟨hsince', hown'⟩ := List.mem_filter.mp (List.mem_of_mem_take hmem')
    have hticks : (since.map LogMsg.tick).Nodup :=
      List.pairwise_map.mpr (h.latest.imp fun hlt => hlt.ne')
    have hsame := List.inj_on_of_nodup_map hticks hsince hsince' heq
    rw [← of_decide_eq_true hown, ← of_decide_eq_true hown', hsame]

theorem ringCmp_eq {lhs rhs : LogMsg} (hl : lhs.tick < 2 ^ 31) (hr : rhs.tick < 2 ^ 31) :
    ringCmp lhs rhs = (rhs.tick : ℤ) - lhs.tick := by
  unfold ringCmp
  refine Int.bmod_eq_of_le ?_ ?_ <;> omega

theorem agrees_ringCmp {l : List LogMsg} (h : ∀ m ∈ l, m.tick < 2 ^ 31) :
    Agrees (fun lhs rhs => (.ok (ringCmp lhs rhs) : Outcome ℤ))
      (fun m m' => m'.tick ≤ m.tick) l := by
  intro x hx y hy c hc
  cases hc
  rw [ringCmp_eq (h x hx) (h y hy)]
  omega

theorem Inv.ticks_lt (h : Inv s since) (hticks : s.ticks ≤ 2 ^ 31) :
    ∀ m ∈ ringMsgs s.rings, m.tick < 2 ^ 31 := by
  intro m hm
  by_cases hzero : m.tick = 0
  · rw [hzero]
    decide
  · have htake := (h.mem_ringMsgs hzero).mp hm
    have hsince := (List.mem_filter.mp (List.mem_of_mem_take htake)).1
    exact (h.ticks m hsince).trans_le hticks

/-- What a dump has printed: each message once, and those that a thread has written since the last
dump, as far as it has room. -/
structure Dumped (since out : List LogMsg) : Prop where
  once : (out.map LogMsg.tick).Nodup
  mem : ∀ m, m ∈ out ↔ m.tick ≠ 0 ∧ m ∈ (ofThread m.tid since).take ringSize

/-- **A dump**. -/
theorem Inv.dump (h : Inv s since) : ∃ out s', ringDump s = .ok (out, s') ∧ Dumped since out ∧
    (s.ticks ≤ 2 ^ 31 → out.Pairwise fun m m' => m'.tick < m.tick) := by
  obtain ⟨msgs, hsort⟩ := mergeSort_ok (l := ringMsgs s.rings)
    (fun x _ y _ => (⟨_, rfl⟩ : ∃ c, (.ok (ringCmp x y) : Outcome ℤ) = .ok c))
  have hperm := mergeSort_perm hsort
  have hdiffer := (hperm.pairwise_iff differ_symm).mpr h.pairwise_ringMsgs
  refine ⟨_, _, by rw [ringDump, hsort, ok_bind], ⟨?_, fun m => ?_⟩, fun hticks => ?_⟩
  · refine List.pairwise_map.mpr (List.pairwise_filter.mpr (hdiffer.imp ?_))
    intro m m' hne h1 h2
    exact hne (by simpa using h1) (by simpa using h2)
  · rw [List.mem_filter, hperm.mem_iff]
    constructor
    · rintro ⟨hmem, hm⟩
      have hne : m.tick ≠ 0 := by simpa using hm
      exact ⟨hne, (h.mem_ringMsgs hne).mp hmem⟩
    · rintro ⟨hne, htake⟩
      exact ⟨(h.mem_ringMsgs hne).mpr htake, by simpa using hne⟩
  · have horder := mergeSort_pairwise (R := fun m m' : LogMsg => m'.tick ≤ m.tick)
      (fun _ _ _ h1 h2 => h2.trans h1) (agrees_ringCmp (h.ticks_lt hticks)) hsort
    refine List.pairwise_filter.mpr ((horder.and hdiffer).imp ?_)
    rintro m m' ⟨hle, hne⟩ h1 h2
    have hm : m.tick ≠ m'.tick := hne (by simpa using h1) (by simpa using h2)
    omega

end Dump

/-! ### Runs -/

theorem Inv.dumped {s s' : State} {since out : List LogMsg} (h : Inv s since)
    (hd : ringDump s = .ok (out, s')) : s'.ticks = s.ticks ∧ Inv s' [] := by
  obtain ⟨msgs, -, hd⟩ := Base.bind_eq_ok.mp hd
  cases hd
  refine ⟨rfl, fun ring hring => ?_, ?_, by simp, by simp, .nil⟩
  · obtain ⟨old, -, rfl⟩ := List.mem_map.mp hring
    exact holds_nil _ _ _
  · rw [List.map_map]
    exact h.once

theorem inv_of_run {n : ℕ} {s : State} {since : List LogMsg} (h : Run n s since) :
    n < 2 ^ 64 → s.ticks = n ∧ Inv s since := by
  induction h with
  | start => exact fun _ => ⟨rfl, by simp [State.start], .nil, by simp, by simp, .nil⟩
  | @log n s since _ tid title text ih =>
    intro hn
    obtain ⟨hticks, hinv⟩ := ih (by omega)
    have hroom : s.ticks + 1 < 2 ^ 64 := by omega
    have hnext : (ringLog s tid title text).ticks = s.ticks + 1 := w64_eq hroom
    exact ⟨by rw [hnext, hticks], hinv.log hroom tid title text⟩
  | dump _ hd ih =>
    intro hn
    obtain ⟨hticks, hinv⟩ := ih hn
    obtain ⟨hsame, hinv'⟩ := hinv.dumped hd
    exact ⟨hsame.trans hticks, hinv'⟩

/-- **The ring log** prints with a dump, after any run, the latest `ring_size` messages of each
thread since the last dump, each once; the first message of the run, which has tick 0, is never
printed. In a run of `2 ^ 31` messages at most the latest comes first. -/
theorem ring_dump_latest {n : ℕ} {s : State} {since : List LogMsg} (h : Run n s since)
    (hn : n < 2 ^ 64) : ∃ out s', ringDump s = .ok (out, s') ∧ Dumped since out ∧
      (n ≤ 2 ^ 31 → out.Pairwise fun m m' => m'.tick < m.tick) := by
  obtain ⟨hticks, hinv⟩ := inv_of_run h hn
  rw [← hticks]
  exact hinv.dump

/-- A thread has written two messages. -/
def twoMsgs : State := ringLog (ringLog .start 7 [97] [120]) 7 [97] [121]

/-- The second one is printed. -/
theorem ring_dump_latest_two : ∃ out s', ringDump twoMsgs = .ok (out, s') ∧
    ⟨7, 1, [97], [121]⟩ ∈ out ∧ ⟨7, 0, [97], [120]⟩ ∉ out := by
  have hrun : Run 2 twoMsgs [⟨7, 1, [97], [121]⟩, ⟨7, 0, [97], [120]⟩] :=
    .log (.log .start 7 [97] [120]) 7 [97] [121]
  obtain ⟨out, s', hdump, hout, -⟩ := ring_dump_latest hrun (by decide)
  refine ⟨out, s', hdump, (hout.mem _).mpr ⟨by decide, ?_⟩, fun hc => ((hout.mem _).mp hc).1 rfl⟩
  rw [List.take_of_length_le (by decide)]
  exact List.mem_cons_self

end Optics.Utils.RingLogs
