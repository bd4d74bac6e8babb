import Optics.BackendRest
import Optics.PollReturns

/-! # Polls, one after the other, and what the REST backend shows

`optics_poller_poll_at` as a whole: the regions are looked for in `/dev/shm` (`shm_foreach`), polled,
and their records told to the backend. After each poll the backend should show the records of this poll
and no others (`Shows`). A poll that finds no region returns before it has told the backend anything,
and what it returns is what happens to be on the stack if nothing in the directory was looked at;
`polls_iff` says for which sequences of polls all is well. -/

namespace Optics.RestPolls

open Optics.Base Optics.Regions Optics.Lenses Optics.LensSlots Optics.Doubles Optics.Utils.Random
open Optics.LensReads Optics.Lib.ByteOrder
open Optics.Utils.Htables Optics.Utils.HtableMap Optics.Utils.HtableGrowth Optics.Utils.Keys
open Optics.Polling Optics.PollTotals Optics.PollReturns Optics.BackendRest

/-! ### The directory -/

/-- `enum shm_ret`, an `int`. -/
abbrev ShmRet := ℤ

def shmOk : ShmRet := 0
def shmBreak : ShmRet := 1
def shmErr : ShmRet := -1

/-- An entry of `/dev/shm`: whether it is a regular file, its name, and what `optics_open` gives for
the name behind the prefix, if it gives anything. -/
structure Dirent where
  regular : Bool
  name : CStr
  region : Option PollerListItem

/-- The entries that `shm_foreach` calls the callback for. -/
def Dirent.isOptics (entry : Dirent) : Bool :=
  entry.regular && entry.name.val.take shmPrefix.length = shmPrefix

/-- `shm_foreach`, in a directory that can be opened; `ret` is not assigned before the first call. -/
def shmForeach {γ : Type} (cb : γ → Dirent → γ × ShmRet) : List Dirent → γ → ShmRet → γ × ShmRet
  | [], ctx, ret => (ctx, ret)
  | entry :: rest, ctx, ret =>
    if entry.isOptics then
      let (ctx, ret) := cb ctx entry
      if ret ≠ shmOk then (ctx, ret) else shmForeach cb rest ctx ret
    else shmForeach cb rest ctx ret

def pollerMaxOptics : ℕ := 128

/-- `poller_shm_cb`. -/
def pollerShmCb (list : List PollerListItem) (entry : Dirent) : List PollerListItem × ShmRet :=
  match entry.region with
  | none => (list, shmOk)
  | some item =>
    if (list ++ [item]).length ≥ pollerMaxOptics then (list ++ [item], shmBreak)
    else (list ++ [item], shmOk)

/-! ### A poll -/

/-- What a call of `optics_poller_poll_at` finds: the host of the poller, the time, the entries of the
directory, and what is on the stack. -/
structure PollCall where
  host : CStr
  ts : ℕ
  dir : List Dirent
  junk : ShmRet

/-- The records in the order in which `htable_next` leads to them. -/
def tableRecords (polls : List OpticsPoll) : List (CStr × ℕ) → Outcome (List OpticsPoll)
  | [] => .ok []
  | item :: rest =>
    match polls[item.2]? with
    | none => .error .segv
    | some poll => do
      let others ← tableRecords polls rest
      .ok (poll :: others)

section Ops
variable {σ : Type} (hash : CStr → UInt64) (fpu : Fpu) (rng : Rng σ)

/-- `optics_poller_poll_at`, with the REST backend for the only one. -/
def opticsPollerPollAt (call : PollCall) (rest : Rest) (gen : σ) : Outcome (Bool × Rest × σ) :=
  let (toPoll, ret) := shmForeach pollerShmCb call.dir [] call.junk
  if ret = shmErr then .ok (false, rest, gen)
  else if toPoll.length = 0 then .ok (true, rest, gen)
  else do
    let (_, values) ← pollItems hash fpu rng call.host call.ts toPoll (Values.zero gen)
    let polls ← tableRecords values.polls (htableItems values.table)
    let rest ← recordPoll polls rest
    .ok (true, rest, values.gen)

/-- Polls one after the other: what each returns, and the backend after it. -/
def pollRun : List PollCall → Rest → σ → Outcome (List (Bool × Rest) × σ)
  | [], _, gen => .ok ([], gen)
  | call :: calls, rest, gen => do
    let (ret, rest, gen) ← opticsPollerPollAt hash fpu rng call rest gen
    let (results, gen) ← pollRun calls rest gen
    .ok ((ret, rest) :: results, gen)

end Ops

/-! ### What should be shown -/

/-- The regions that a poll finds, up to the capacity of the poller. -/
def openRegions (dir : List Dirent) : List PollerListItem :=
  ((dir.filter Dirent.isOptics).filterMap Dirent.region).take pollerMaxOptics

/-- The lenses that a poll reads. -/
def callWorks (call : PollCall) : List (PollerPollCtx × PolledLens) :=
  works call.host call.ts (openRegions call.dir)

/-- The backend shows a poll: one entry for each key of a lens that was polled, sorted by key, with the
value that all lenses of the key have been read into in this poll. -/
structure Shows {σ : Type} (fpu : Fpu) (rng : Rng σ) (call : PollCall) (rest : Rest) : Prop where
  sorted : (entries rest.current).Pairwise fun a b => metricsCmp a b < 0
  keys : ∀ k, (∃ m ∈ entries rest.current, m.key = k) ↔ ∃ w ∈ callWorks call, workKey w = k
  values : ∃ out : List (ℕ × PolledLens), out.length = (callWorks call).length ∧
    ∀ m ∈ entries rest.current, ∃ poll,
      Merged fpu rng ((visits (callWorks call) out).filter fun v => v.key = m.key) poll ∧
        m.value = poll.value

/-- A region is found, or there is nothing to show and nothing is shown; and if nothing in the
directory is looked at, the stack does not say `shm_err`. -/
def Meets (empty : Bool) (call : PollCall) : Prop :=
  openRegions call.dir ≠ [] ∨
    (empty = true ∧ (call.dir.any Dirent.isOptics = true ∨ call.junk ≠ shmErr))

/-- Whether nothing is shown after a poll. -/
def emptyAfter (empty : Bool) (call : PollCall) : Bool :=
  if openRegions call.dir = [] then empty else (callWorks call).isEmpty

/-- All polls of a sequence meet the condition. -/
def AllMeet : Bool → List PollCall → Prop
  | _, [] => True
  | empty, call :: calls => Meets empty call ∧ AllMeet (emptyAfter empty call) calls

/-! ### Looking for regions -/

/-- **The regions found**, behind those found before, and what is returned. -/
theorem shmForeach_spec : ∀ {dir : List Dirent} {list : List PollerListItem} {ret : ShmRet},
    list.length < pollerMaxOptics →
    (shmForeach pollerShmCb dir list ret).1 =
      (list ++ (dir.filter Dirent.isOptics).filterMap Dirent.region).take pollerMaxOptics ∧
    ((shmForeach pollerShmCb dir list ret).2 = shmErr ↔
      dir.any Dirent.isOptics = false ∧ ret = shmErr)
  | [], list, ret, h => by
    refine ⟨?_, by simp [shmForeach]⟩
    rw [List.filter_nil, List.filterMap_nil, List.append_nil, List.take_of_length_le h.le]
    rfl
  | entry :: dir, list, ret, h => by
    rcases hopt : entry.isOptics with _ | _
    · -- an entry of another kind
      rw [shmForeach, hopt, List.filter_cons_of_neg (by rw [hopt]; decide), List.any_cons, hopt,
        Bool.false_or]
      exact shmForeach_spec h
    · rw [shmForeach, hopt, List.filter_cons_of_pos hopt, List.any_cons, hopt, Bool.true_or,
        if_pos rfl]
      have hok : shmOk ≠ shmErr := by decide
      have hnot : ¬ (true = false ∧ ret = shmErr) := fun hc => by cases hc.1
      unfold pollerShmCb
      rcases hreg : entry.region with _ | item
      · -- the region cannot be opened
        obtain ⟨hlist, herr⟩ := shmForeach_spec h
        rw [List.filterMap_cons_none hreg]
        dsimp only
        rw [if_neg (not_not.mpr rfl)]
        exact ⟨hlist, iff_of_false (fun hc => hok (herr.mp hc).2) hnot⟩
      · rw [List.filterMap_cons_some hreg, List.append_cons]
        dsimp only
        by_cases hfull : (list ++ [item]).length ≥ pollerMaxOptics
        · -- the last one there is room for
          have hlen : (list ++ [item]).length = pollerMaxOptics := by
            rw [List.length_append, List.length_singleton] at hfull ⊢
            omega
          rw [if_pos hfull, if_pos (show shmBreak ≠ shmOk by decide), List.take_left' hlen]
          exact ⟨rfl, iff_of_false (show shmBreak ≠ shmErr by decide) hnot⟩
        · obtain ⟨hlist, herr⟩ := shmForeach_spec (not_le.mp hfull)
          rw [if_neg hfull, if_neg (not_not.mpr rfl)]
          exact ⟨hlist, iff_of_false (fun hc => hok (herr.mp hc).2) hnot⟩

theorem shmForeach_open (call : PollCall) :
    (shmForeach pollerShmCb call.dir [] call.junk).1 = openRegions call.dir ∧
    ((shmForeach pollerShmCb call.dir [] call.junk).2 = shmErr ↔
      call.dir.any Dirent.isOptics = false ∧ call.junk = shmErr) :=
  shmForeach_spec (by decide)

theorem any_of_openRegions {dir : List Dirent} (h : openRegions dir ≠ []) :
    dir.any Dirent.isOptics = true := by
  by_contra hc
  refine h ?_
  have hnil : dir.filter Dirent.isOptics = [] := List.filter_eq_nil_iff.mpr fun e he ho =>
    hc (List.any_eq_true.mpr ⟨e, he, ho⟩)
  rw [openRegions, hnil]
  rfl

theorem shmForeach_found {call : PollCall} (hopen : openRegions call.dir ≠ []) :
    (shmForeach pollerShmCb call.dir [] call.junk).1 = openRegions call.dir ∧
      (shmForeach pollerShmCb call.dir [] call.junk).2 ≠ shmErr := by
  obtain ⟨hlist, herr⟩ := shmForeach_open call
  refine ⟨hlist, fun hc => ?_⟩
  have hany := (herr.mp hc).1
  rw [any_of_openRegions hopen] at hany
  cases hany

/-! ### The records -/

theorem tableRecords_spec {polls : List OpticsPoll} {Q : OpticsPoll → Prop} :
    ∀ {items : List (CStr × ℕ)}, (∀ item ∈ items, ∃ poll, polls[item.2]? = some poll ∧
      (metricOf poll).key = item.1 ∧ Q poll) → ∃ records, tableRecords polls items = .ok records ∧
      (records.map fun poll => (metricOf poll).key) = items.map Prod.fst ∧ ∀ poll ∈ records, Q poll
  | [], _ => ⟨[], rfl, rfl, fun _ hp => absurd hp List.not_mem_nil⟩
  | item :: items, h => by
    obtain ⟨records, hrun, hkeys, hall⟩ :=
      tableRecords_spec fun x hx => h x (List.mem_cons_of_mem _ hx)
    obtain ⟨poll, hget, hkey, hpoll⟩ := h item List.mem_cons_self
    refine ⟨poll :: records, ?_, ?_, List.forall_mem_cons.mpr ⟨hpoll, hall⟩⟩
    · rw [tableRecords, hget]
      dsimp only
      rw [hrun, ok_bind]
    · rw [List.map_cons, List.map_cons, hkey, hkeys]

section Polls
variable {σ : Type} {hash : CStr → UInt64} {fpu : Fpu} {rng : Rng σ}

theorem merged_names {g : List Visit} {poll : OpticsPoll} (h : Merged fpu rng g poll) :
    ∃ v ∈ g, (metricOf poll).key = v.key := by
  have hkey : ∀ (v : Visit) value, (metricOf { firstPoll v.ctx v.before with value := value }).key =
      v.key := fun v value => rfl
  induction h with
  | @first v value hread => exact ⟨v, List.mem_singleton_self v, hkey v value⟩
  | @next g v poll value hg hread ih =>
    obtain ⟨u, hu, hkey⟩ := ih
    refine ⟨u, List.mem_append_left _ hu, ?_⟩
    rw [← hkey]
    unfold touchPoll
    split_ifs <;> rfl

/-- **The records of a poll**, in the order of the table: one for each key, under this key. -/
theorem records_spec {host : CStr} {ts : ℕ} {items : List PollerListItem} {gen : σ}
    {out : List (List (ℕ × PolledLens))} {values : Values σ}
    (h : pollItems hash fpu rng host ts items (Values.zero gen) = .ok (out, values)) :
    ∃ records, tableRecords values.polls (htableItems values.table) = .ok records ∧
      (records.map fun poll => (metricOf poll).key).Nodup ∧
      (∀ k, (∃ poll ∈ records, (metricOf poll).key = k) ↔ ∃ w ∈ works host ts items, workKey w = k) ∧
      ∀ poll ∈ records, Merged fpu rng ((visits (works host ts items) out.flatten).filter fun v =>
        v.key = (metricOf poll).key) poll := by
  obtain ⟨hlen, keys, hv⟩ := pollItems_visited h
  have hperm := hv.indexed.items
  have hrecords : ∀ item ∈ htableItems values.table, ∃ poll, values.polls[item.2]? = some poll ∧
      (metricOf poll).key = item.1 ∧ Merged fpu rng
        ((visits (works host ts items) out.flatten).filter fun v => v.key = (metricOf poll).key)
        poll := by
    intro item hitem
    have hat : keys[item.2]? = some item.1 := List.mem_zipIdx_iff_getElem?.mp (hperm.mem_iff.mp hitem)
    have hlt : item.2 < values.polls.length := by
      rw [hv.indexed.length]
      exact (List.getElem?_eq_some_iff.mp hat).1
    have hget := List.getElem?_eq_getElem hlt
    have hmerged := hv.merged item.2 item.1 _ hat hget
    obtain ⟨v, hmem, hname⟩ := merged_names hmerged
    have hkey := hname.trans (of_decide_eq_true (List.mem_filter.mp hmem).2)
    exact ⟨_, hget, hkey, by rw [hkey]; exact hmerged⟩
  obtain ⟨records, hrun, hkeys, hall⟩ := tableRecords_spec hrecords
  have hfst : ((htableItems values.table).map Prod.fst).Perm keys := by
    have hmap := hperm.map Prod.fst
    rwa [List.zipIdx_map_fst] at hmap
  refine ⟨records, hrun, ?_, fun k => ?_, hall⟩
  · rw [hkeys]
    exact hfst.nodup_iff.mpr hv.indexed.nodup
  · rw [← List.mem_map, hkeys, hfst.mem_iff, hv.keys_iff]
    constructor
    · rintro ⟨v, hmem, rfl⟩
      exact ⟨_, (exists_visit hlen).mpr ⟨v, hmem, rfl⟩, rfl⟩
    · rintro ⟨w, hw, rfl⟩
      obtain ⟨v, hmem, rfl⟩ := (exists_visit hlen).mp hw
      exact ⟨v, hmem, rfl⟩

/-! ### One poll -/

theorem metricCmp_neg {a b : Metric} (ha : a.key.val.length ≤ opticsNameMaxLen)
    (hb : b.key.val.length ≤ opticsNameMaxLen) (hle : metricsCmp a b ≤ 0) (hne : a.key ≠ b.key) :
    metricsCmp a b < 0 := by
  refine lt_of_le_of_ne hle fun h0 => hne (Subtype.ext ?_)
  have h := (strncmp_eq_zero_iff a.key.property b.key.property).mp h0
  rwa [List.take_of_length_le ha, List.take_of_length_le hb] at h

/-- **A poll that finds a region** returns true and is shown, whatever was shown before. -/
theorem poll_shows {call : PollCall} {rest rest' : Rest} {gen gen' : σ} {ret : Bool}
    (hopen : openRegions call.dir ≠ [])
    (h : opticsPollerPollAt hash fpu rng call rest gen = .ok (ret, rest', gen')) :
    ret = true ∧ Shows fpu rng call rest' := by
  obtain ⟨hlist, hret⟩ := shmForeach_found hopen
  unfold opticsPollerPollAt at h
  dsimp only at h
  rw [if_neg hret, hlist, if_neg fun hc => hopen (List.length_eq_zero_iff.mp hc)] at h
  obtain ⟨⟨out, values⟩, hpoll, h⟩ := Base.bind_eq_ok.mp h
  obtain ⟨records, hrecords, hnodup, hkeys, hmerged⟩ := records_spec hpoll
  obtain ⟨rest1, hrecord, -, hperm, hsorted⟩ := recordPoll_spec records rest
  dsimp only at h
  rw [hrecords, ok_bind, hrecord, ok_bind] at h
  cases h
  have hshort : ∀ m ∈ entries rest'.current, m.key.val.length ≤ opticsNameMaxLen := fun m hm => by
    obtain ⟨poll, -, rfl⟩ := List.mem_map.mp (hperm.mem_iff.mp hm)
    exact (List.length_take_le _ _).trans (by decide)
  refine ⟨rfl, ⟨?_, fun k => ?_, out.flatten, (pollItems_visited hpoll).1, fun m hm => ?_⟩⟩
  · have hapart : (entries rest'.current).Pairwise fun a b => a.key ≠ b.key := by
      have hmap := (hperm.map Metric.key).nodup_iff.mpr (by rwa [List.map_map])
      exact List.pairwise_map.mp hmap
    refine List.Pairwise.imp_of_mem (fun ha hb hab => ?_) (hsorted.and hapart)
    exact metricCmp_neg (hshort _ ha) (hshort _ hb) hab.1 hab.2
  · simp only [hperm.mem_iff, List.mem_map, exists_exists_and_eq_and]
    exact hkeys k
  · obtain ⟨poll, hpoll, rfl⟩ := List.mem_map.mp (hperm.mem_iff.mp hm)
    exact ⟨poll, hmerged poll hpoll, rfl⟩

/-- A poll that finds no region changes nothing. -/
theorem poll_none {call : PollCall} (hopen : openRegions call.dir = []) (rest : Rest) (gen : σ) :
    opticsPollerPollAt hash fpu rng call rest gen =
      .ok (!decide (call.dir.any Dirent.isOptics = false ∧ call.junk = shmErr), rest, gen) := by
  obtain ⟨hlist, herr⟩ := shmForeach_open call
  unfold opticsPollerPollAt
  dsimp only
  rw [hlist, hopen]
  by_cases hret : (shmForeach pollerShmCb call.dir [] call.junk).2 = shmErr
  · rw [if_pos hret, decide_eq_true (herr.mp hret)]
    rfl
  · rw [if_neg hret, decide_eq_false (mt herr.mpr hret)]
    rfl

theorem shows_none_iff {call : PollCall} (hopen : openRegions call.dir = []) {rest : Rest} :
    Shows fpu rng call rest ↔ entries rest.current = [] := by
  have hworks : callWorks call = [] := by
    rw [callWorks, hopen]
    rfl
  constructor
  · intro h
    refine List.eq_nil_iff_forall_not_mem.mpr fun m hm => ?_
    obtain ⟨w, hw, -⟩ := (h.keys m.key).mp ⟨m, hm, rfl⟩
    rw [hworks] at hw
    exact List.not_mem_nil hw
  · intro h
    refine ⟨by rw [h]; exact .nil, fun k => ?_, [], by rw [hworks]; rfl, fun m hm => ?_⟩
    · rw [h, hworks]
      simp
    · rw [h] at hm
      exact absurd hm List.not_mem_nil

/-- **A poll** returns true and is shown exactly if it meets the condition. -/
theorem poll_iff {call : PollCall} {rest rest' : Rest} {gen gen' : σ} {ret : Bool}
    (h : opticsPollerPollAt hash fpu rng call rest gen = .ok (ret, rest', gen')) :
    ((ret = true ∧ Shows fpu rng call rest') ↔ Meets (entries rest.current).isEmpty call) ∧
    (entries rest'.current).isEmpty = emptyAfter (entries rest.current).isEmpty call := by
  unfold Meets emptyAfter
  by_cases hopen : openRegions call.dir = []
  · rw [poll_none hopen] at h
    cases h
    rw [if_pos hopen, shows_none_iff hopen, List.isEmpty_iff]
    refine ⟨?_, rfl⟩
    simp only [hopen, ne_eq, not_true_eq_false, false_or, Bool.not_eq_true', decide_eq_false_iff_not,
      not_and_or, Bool.not_eq_false]
    exact and_comm
  · obtain ⟨hret, hshows⟩ := poll_shows hopen h
    rw [if_neg hopen]
    refine ⟨iff_of_true ⟨hret, hshows⟩ (.inl hopen), ?_⟩
    rw [Bool.eq_iff_iff, List.isEmpty_iff, List.isEmpty_iff, List.eq_nil_iff_forall_not_mem,
      List.eq_nil_iff_forall_not_mem]
    constructor
    · intro hnone w hw
      obtain ⟨m, hm, -⟩ := (hshows.keys (workKey w)).mpr ⟨w, hw, rfl⟩
      exact hnone m hm
    · intro hnone m hm
      obtain ⟨w, hw, -⟩ := (hshows.keys m.key).mp ⟨m, hm, rfl⟩
      exact hnone w hw

/-- **A poll returns** if the hashes of the keys are apart. -/
theorem poll_returns (ht : Total fpu rng) {call : PollCall} {n : ℕ} (hn : n < 64)
    (hA : Apart hash n ((callWorks call).map workKey).toFinset) (rest : Rest) (gen : σ) :
    ∃ r, opticsPollerPollAt hash fpu rng call rest gen = .ok r := by
  by_cases hopen : openRegions call.dir = []
  · exact ⟨_, poll_none hopen rest gen⟩
  · obtain ⟨hlist, hret⟩ := shmForeach_found hopen
    obtain ⟨out, values, hpoll⟩ := pollItems_returns ht hn hA gen
    obtain ⟨records, hrecords, -⟩ := records_spec hpoll
    obtain ⟨rest1, hrecord, -⟩ := recordPoll_spec records rest
    refine ⟨(true, rest1, values.gen), ?_⟩
    unfold opticsPollerPollAt
    dsimp only
    rw [if_neg hret, hlist, if_neg fun hc => hopen (List.length_eq_zero_iff.mp hc), hpoll, ok_bind]
    dsimp only
    rw [hrecords, ok_bind, hrecord, ok_bind]

/-! ### Sequences of polls -/

theorem pollRun_iff : ∀ {calls : List PollCall} {rest : Rest} {gen gen' : σ}
    {results : List (Bool × Rest)}, pollRun hash fpu rng calls rest gen = .ok (results, gen') →
    (List.Forall₂ (fun call r => r.1 = true ∧ Shows fpu rng call r.2) calls results ↔
      AllMeet (entries rest.current).isEmpty calls)
  | [], rest, gen, gen', results, h => by
    cases h
    exact iff_of_true .nil trivial
  | call :: calls, rest, gen, gen', results, h => by
    obtain ⟨⟨ret, rest1, gen1⟩, hone, h⟩ := Base.bind_eq_ok.mp h
    obtain ⟨⟨results1, gen2⟩, hrest, h⟩ := Base.bind_eq_ok.mp h
    cases h
    obtain ⟨hiff, hempty⟩ := poll_iff hone
    rw [List.forall₂_cons, AllMeet, hiff, ← hempty, pollRun_iff hrest]

theorem pollRun_returns (ht : Total fpu rng) : ∀ {calls : List PollCall},
    (∀ call ∈ calls, ∃ n < 64, Apart hash n ((callWorks call).map workKey).toFinset) →
    ∀ (rest : Rest) (gen : σ), ∃ r, pollRun hash fpu rng calls rest gen = .ok r
  | [], _, _, gen => ⟨([], gen), rfl⟩
  | call :: calls, h, rest, gen => by
    obtain ⟨n, hn, hA⟩ := h call List.mem_cons_self
    obtain ⟨⟨ret, rest1, gen1⟩, hone⟩ := poll_returns ht hn hA rest gen
    obtain ⟨⟨results, gen2⟩, hrest⟩ :=
      pollRun_returns ht (fun c hc => h c (List.mem_cons_of_mem _ hc)) rest1 gen1
    refine ⟨((ret, rest1) :: results, gen2), ?_⟩
    rw [pollRun, hone, ok_bind]
    dsimp only
    rw [hrest, ok_bind]

/-- **After every poll** of a sequence, the poll has returned true and the backend shows it and nothing
else, exactly if all polls meet the condition; and the sequence returns, if the hashes of the keys of
each poll are apart. -/
theorem polls_iff {calls : List PollCall} {gen : σ} :
    (∀ results gen', pollRun hash fpu rng calls Rest.zero gen = .ok (results, gen') →
      (List.Forall₂ (fun call r => r.1 = true ∧ Shows fpu rng call r.2) calls results ↔
        AllMeet true calls)) ∧
    (Total fpu rng →
      (∀ call ∈ calls, ∃ n < 64, Apart hash n ((callWorks call).map workKey).toFinset) →
      ∃ results gen', pollRun hash fpu rng calls Rest.zero gen = .ok (results, gen')) := by
  refine ⟨fun results gen' h => pollRun_iff h, fun ht hA => ?_⟩
  obtain ⟨⟨results, gen'⟩, hrun⟩ := pollRun_returns ht hA Rest.zero gen
  exact ⟨results, gen', hrun⟩

end Polls

/-! ### A region that goes away -/

/-- The entry of a region `a` with a counter `c`. -/
def counterFile : Dirent :=
  ⟨true, ⟨[111, 112, 116, 105, 99, 115, 46, 97], by decide⟩,
    some ⟨nameA, 10, 0, [⟨nameC, .counter fun _ => 3⟩]⟩⟩

/-- A poll of a host `h`. -/
def pollOf (ts : ℕ) (dir : List Dirent) : PollCall := ⟨nameH, ts, dir, 0⟩

theorem callWorks_counterFile (ts : ℕ) :
    callWorks (pollOf ts [counterFile]) = [(⟨ts, pollElapsed ts 10, nameH, nameA, 0⟩,
      ⟨nameC, .counter fun _ => 3⟩)] := rfl

theorem apart_counterFile (ts : ℕ) : Apart htableHash 0
    ((callWorks (pollOf ts [counterFile])).map workKey).toFinset := by
  intro a ha b hb _
  rw [callWorks_counterFile] at ha hb
  rw [List.mem_singleton.mp (List.mem_toFinset.mp ha), List.mem_singleton.mp (List.mem_toFinset.mp hb)]

/-- The counter of a region that is gone is still shown, although the poll returns true. -/
theorem polls_stale : ∃ rest1 rest2 gen',
    pollRun htableHash saturating (xorshift saturating) [pollOf 15 [counterFile], pollOf 20 []]
      Rest.zero 1 = .ok ([(true, rest1), (true, rest2)], gen') ∧
    callWorks (pollOf 20 []) = [] ∧ (∃ m, m ∈ entries rest2.current) ∧
    ¬ List.Forall₂ (fun call r => r.1 = true ∧ Shows saturating (xorshift saturating) call r.2)
      [pollOf 15 [counterFile], pollOf 20 []] [(true, rest1), (true, rest2)] := by
  obtain ⟨⟨ret, rest1, gen1⟩, hone⟩ := poll_returns total_saturating (by decide)
    (apart_counterFile 15) Rest.zero 1
  have hopen : openRegions (pollOf 15 [counterFile]).dir ≠ [] := List.cons_ne_nil _ _
  obtain ⟨rfl, hshows⟩ := poll_shows hopen hone
  have htwo := @poll_none UInt64 htableHash saturating (xorshift saturating) (pollOf 20 []) rfl rest1
    gen1
  have hin : ∃ m, m ∈ entries rest1.current := by
    obtain ⟨m, hm, -⟩ := (hshows.keys _).mpr ⟨_, List.mem_cons_self, rfl⟩
    exact ⟨m, hm⟩
  refine ⟨rest1, rest1, gen1, ?_, rfl, hin, fun h => ?_⟩
  · rw [pollRun, hone, ok_bind]
    dsimp only
    rw [pollRun, htwo]
    rfl
  · obtain ⟨-, htail⟩ := List.forall₂_cons.mp h
    obtain ⟨⟨-, hshows2⟩, -⟩ := List.forall₂_cons.mp htail
    rw [shows_none_iff rfl] at hshows2
    obtain ⟨m, hm⟩ := hin
    rw [hshows2] at hm
    exact List.not_mem_nil hm

/-- While the region is there, it is shown. -/
theorem polls_iff_two : ∃ results gen',
    pollRun htableHash saturating (xorshift saturating) [pollOf 15 [], pollOf 20 [counterFile]]
      Rest.zero 1 = .ok (results, gen') ∧
    List.Forall₂ (fun call r => r.1 = true ∧ Shows saturating (xorshift saturating) call r.2)
      [pollOf 15 [], pollOf 20 [counterFile]] results := by
  obtain ⟨hiff, hreturns⟩ := @polls_iff UInt64 htableHash saturating (xorshift saturating)
    [pollOf 15 [], pollOf 20 [counterFile]] 1
  obtain ⟨results, gen', hrun⟩ := hreturns total_saturating (by
    intro call hcall
    rcases List.mem_cons.mp hcall with rfl | hcall
    · exact ⟨0, by decide, fun a ha => absurd ha (List.not_mem_nil ∘ List.mem_toFinset.mp)⟩
    · rw [List.mem_singleton.mp hcall]
      exact ⟨0, by decide, apart_counterFile 20⟩)
  refine ⟨results, gen', hrun, (hiff results gen' hrun).mpr ⟨.inr ⟨rfl, .inr (by decide)⟩, ?_⟩⟩
  exact ⟨.inl (List.cons_ne_nil _ _), trivial⟩

end Optics.RestPolls
