import Optics.LensReads
import Optics.Utils.HtableGrowth
import Optics.Utils.Keys

/-! # Polling the regions

`poller_poll.c`, from the loop over the regions inwards: every lens of every region is read into the
record of its key, which is made when the first lens with the key comes along and found in a hash
table after that. A record is named by its number; the table holds the numbers.

The loop over the lenses of a region is the traversal of its list, with nobody else at work. Two
facts about a run hold whatever the lenses are: there is one record for each key (`Indexed`), and
every lens is read into the record of its key (`pollEach_indexed`). -/

namespace Optics.Polling

open Optics.Base Optics.Lenses Optics.LensSlots Optics.Doubles Optics.Utils.Random Optics.LensReads
open Optics.Utils.Htables Optics.Utils.HtableMap Optics.Utils.HtableGrowth Optics.Utils.Keys

/-! ### The data -/

/-- A lens, as a poll sees it. -/
structure PolledLens where
  name : CStr
  data : LensData

/-- `struct poller_list_item`, with the prefix and the lenses of its region. -/
structure PollerListItem where
  regionPrefix : CStr
  lastPoll : ℕ
  epoch : Fin 2
  lenses : List PolledLens

/-- `struct optics_poll`. -/
structure OpticsPoll where
  host : CStr
  regionPrefix : CStr
  key : CStr
  value : OpticsPollValue
  ts : ℕ
  elapsed : ℕ

/-- `struct poller_poll_ctx`. -/
structure PollerPollCtx where
  ts : ℕ
  elapsed : ℕ
  host : CStr
  regionPrefix : CStr
  epoch : Fin 2

/-- The table of a poll, the records made so far, and the state of the generator. -/
structure Values (σ : Type) where
  table : Htable
  polls : List OpticsPoll
  gen : σ

/-- `struct htable values = {0}`. -/
def Values.zero {σ : Type} (gen : σ) : Values σ := ⟨Htable.zero, [], gen⟩

/-! ### The functions -/

/-- The key of a lens in the table: its region's prefix, the host and its name. -/
def pollKey (regionPrefix host name : CStr) : Outcome OpticsKey := do
  let (key, _) ← opticsKeyPush OpticsKey.zero regionPrefix
  let (key, _) ← opticsKeyPush key host
  let (key, _) ← opticsKeyPush key name
  .ok key

/-- What `poller_get_value` makes of a record it finds. -/
def touchPoll (ctx : PollerPollCtx) (poll : OpticsPoll) : OpticsPoll :=
  if ctx.elapsed > poll.elapsed then { poll with elapsed := ctx.elapsed } else poll

/-- The record that `poller_get_value` makes. -/
def firstPoll (ctx : PollerPollCtx) (lens : PolledLens) : OpticsPoll :=
  { host := ctx.host, regionPrefix := ctx.regionPrefix, key := lens.name
    value := .zero lens.data.type, ts := ctx.ts, elapsed := ctx.elapsed }

section Ops
variable {σ : Type} (hash : CStr → UInt64) (fpu : Fpu) (rng : Rng σ)

/-- `poller_get_value`: the number of the record. -/
def pollerGetValue (ctx : PollerPollCtx) (lens : PolledLens) (key : CStr) (values : Values σ) :
    Outcome (ℕ × Values σ) := do
  let (table, ret) ← htableGet hash values.table key
  if ret.ok then
    let polls := values.polls.modify ret.value (touchPoll ctx)
    .ok (ret.value, { values with table := table, polls := polls })
  else do
    let i := values.polls.length
    let (table, ret) ← htablePut hash table key i
    opticsAssert ret.ok
    .ok (i, { values with table := table, polls := values.polls ++ [firstPoll ctx lens] })

/-- `poller_poll_lens`: the number of the record the lens is read into, and the lens. A read that
fails is reported and otherwise ignored. -/
def pollerPollLens (ctx : PollerPollCtx) (lens : PolledLens) (values : Values σ) :
    Outcome ((ℕ × PolledLens) × Values σ) := do
  let key ← pollKey ctx.regionPrefix ctx.host lens.name
  let (i, values) ← pollerGetValue hash ctx lens key.str values
  match values.polls[i]? with
  | none => .error .segv
  | some poll => do
    let (_, value, data, gen) ← readValue fpu rng poll.value lens.data ctx.epoch values.gen
    .ok ((i, { lens with data := data }),
      { values with polls := values.polls.set i { poll with value := value }, gen := gen })

/-- Lenses polled one after the other. -/
def pollEach : List (PollerPollCtx × PolledLens) → Values σ →
    Outcome (List (ℕ × PolledLens) × Values σ)
  | [], values => .ok ([], values)
  | (ctx, lens) :: rest, values => do
    let (polled, values) ← pollerPollLens hash fpu rng ctx lens values
    let (others, values) ← pollEach rest values
    .ok (polled :: others, values)

/-- The time since the last poll of a region, at least 1. -/
def pollElapsed (ts lastPoll : ℕ) : ℕ := if ts > lastPoll then ts - lastPoll else 1

/-- The context for the lenses of a region. -/
def pollCtx (host : CStr) (ts : ℕ) (item : PollerListItem) : PollerPollCtx :=
  { ts := ts, elapsed := pollElapsed ts item.lastPoll, host := host
    regionPrefix := item.regionPrefix, epoch := item.epoch }

/-- `poller_poll_optics`. -/
def pollerPollOptics (host : CStr) (ts : ℕ) (item : PollerListItem) (values : Values σ) :
    Outcome (List (ℕ × PolledLens) × Values σ) :=
  pollEach hash fpu rng (item.lenses.map fun lens => (pollCtx host ts item, lens)) values

/-- The loop of `optics_poller_poll_at` over the regions. -/
def pollItems (host : CStr) (ts : ℕ) : List PollerListItem → Values σ →
    Outcome (List (List (ℕ × PolledLens)) × Values σ)
  | [], values => .ok ([], values)
  | item :: rest, values => do
    let (polled, values) ← pollerPollOptics hash fpu rng host ts item values
    let (others, values) ← pollItems host ts rest values
    .ok (polled :: others, values)

/-- The record of a key. -/
def Values.find (values : Values σ) (key : CStr) : Option OpticsPoll :=
  match htableGet hash values.table key with
  | .ok (_, ret) => if ret.ok then values.polls[ret.value]? else none
  | .error _ => none

end Ops

/-! ### Keys -/

/-- The parts of a name, dotted and cut at 255 bytes. -/
def keyBytes (regionPrefix host name : CStr) : List UInt8 :=
  (join (join regionPrefix.val host.val) name.val).take (opticsNameMaxLen - 1)

theorem zero_notMem_join {s t : List UInt8} (hs : (0 : UInt8) ∉ s) (ht : (0 : UInt8) ∉ t) :
    (0 : UInt8) ∉ join s t := by
  unfold join
  split_ifs with h
  · exact ht
  · rw [List.mem_append, List.mem_cons, not_or, not_or]
    exact ⟨hs, by decide, ht⟩

/-- The key of a lens. -/
def keyOf (ctx : PollerPollCtx) (lens : PolledLens) : CStr :=
  ⟨keyBytes ctx.regionPrefix ctx.host lens.name, fun h =>
    zero_notMem_join (zero_notMem_join ctx.regionPrefix.property ctx.host.property)
      lens.name.property (List.mem_of_mem_take h)⟩

/-- **The key is the dotted name**, cut. -/
theorem pollKey_spec (ctx : PollerPollCtx) (lens : PolledLens) :
    ∃ key, pollKey ctx.regionPrefix ctx.host lens.name = .ok key ∧ key.str = keyOf ctx lens := by
  obtain ⟨k1, h1, hk1⟩ := opticsKeyPush_spec OpticsKey.holds_zero ctx.regionPrefix
  obtain ⟨k2, h2, hk2⟩ := opticsKeyPush_spec hk1 ctx.host
  obtain ⟨k3, h3, hk3⟩ := opticsKeyPush_spec hk2 lens.name
  refine ⟨k3, ?_, Subtype.ext ?_⟩
  · simp only [pollKey, h1, h2, h3, ok_bind]
  · rw [hk3.str]
    have hn : opticsNameMaxLen - 1 = 254 + 1 := rfl
    have h0 : join [] ctx.regionPrefix.val = ctx.regionPrefix.val := rfl
    show _ = (join (join ctx.regionPrefix.val ctx.host.val) lens.name.val).take _
    rw [h0, hn, join_take 254 ctx.regionPrefix.val, join_take 254 (join _ _)]

theorem clip_keyOf (ctx : PollerPollCtx) (lens : PolledLens) :
    clip (keyOf ctx lens) = keyOf ctx lens := by
  refine CStr.take_of_length_le ?_
  have h : (keyOf ctx lens).val.length ≤ opticsNameMaxLen - 1 := List.length_take_le _ _
  exact h.trans (by decide)

/-! ### One record for each key -/

section Index
variable {σ : Type} {hash : CStr → UInt64} {fpu : Fpu} {rng : Rng σ}

/-- The table leads from each of the keys to a record of its own; the records are numbered as the keys
came along. -/
structure Indexed (hash : CStr → UInt64) (keys : List CStr) (values : Values σ) : Prop where
  nodup : keys.Nodup
  length : values.polls.length = keys.length
  clipped : ∀ k ∈ keys, clip k = k
  table : ∃ M, Utils.HtableMap.Inv hash values.table M ∧
    (∀ k i, M.lookup k = some i ↔ keys[i]? = some k)

theorem indexed_zero (gen : σ) : Indexed hash [] (Values.zero gen) :=
  ⟨List.nodup_nil, rfl, fun k hk => absurd hk List.not_mem_nil, ∅, inv_zero, fun k i => by simp⟩

theorem Indexed.setPoll {keys : List CStr} {values : Values σ} (h : Indexed hash keys values)
    (i : ℕ) (poll : OpticsPoll) (gen : σ) :
    Indexed hash keys ⟨values.table, values.polls.set i poll, gen⟩ :=
  ⟨h.nodup, by rw [List.length_set, h.length], h.clipped, h.table⟩

theorem Indexed.get {keys : List CStr} {values : Values σ} (h : Indexed hash keys values) {k : CStr}
    (hk : clip k = k) : ∃ table M, Utils.HtableMap.Inv hash table M ∧
      (∀ k i, M.lookup k = some i ↔ keys[i]? = some k) ∧
      htableGet hash values.table k = .ok (table, ofLookup (M.lookup k)) := by
  obtain ⟨M, hi, hM⟩ := h.table
  obtain ⟨table, hget, hi', -⟩ := htableGet_spec hi k
  rw [hk] at hget
  exact ⟨table, M, hi', hM, hget⟩

theorem Indexed.find_eq {keys : List CStr} {values : Values σ} (h : Indexed hash keys values)
    {k : CStr} {i : ℕ} (hi : keys[i]? = some k) : values.find hash k = values.polls[i]? := by
  have hk : clip k = k := h.clipped k (List.mem_of_getElem? hi)
  obtain ⟨table, M, -, hM, hget⟩ := h.get hk
  rw [Values.find, hget, (hM k i).mpr hi]
  rfl

theorem Indexed.index_inj {keys : List CStr} {values : Values σ} (h : Indexed hash keys values)
    {k : CStr} {i j : ℕ} (hi : keys[i]? = some k) (hj : keys[j]? = some k) : i = j := by
  obtain ⟨hi', hik⟩ := List.getElem?_eq_some_iff.mp hi
  obtain ⟨hj', hjk⟩ := List.getElem?_eq_some_iff.mp hj
  exact (List.Nodup.getElem_inj_iff h.nodup).mp (hik.trans hjk.symm)

/-- **The entries of the table**: each key with the number of its record. -/
theorem Indexed.items {keys : List CStr} {values : Values σ} (h : Indexed hash keys values) :
    (htableItems values.table).Perm keys.zipIdx := by
  obtain ⟨M, hi, hM⟩ := h.table
  refine (List.perm_ext_iff_of_nodup (htableItems_nodup hi).of_map ?_).mpr fun ⟨k, i⟩ => ?_
  · refine List.Nodup.of_map Prod.fst ?_
    rw [List.zipIdx_map_fst]
    exact h.nodup
  · rw [mem_htableItems, ← hi.rep, hM, List.mem_zipIdx_iff_getElem?]

theorem getElem?_concat_iff {keys : List CStr} {key k : CStr} {j : ℕ} :
    (keys ++ [key])[j]? = some k ↔ keys[j]? = some k ∨ j = keys.length ∧ k = key := by
  rcases Nat.lt_trichotomy j keys.length with hlt | rfl | hgt
  · rw [List.getElem?_append_left hlt]
    exact ⟨.inl, fun h => h.elim id fun hj => absurd hj.1 hlt.ne⟩
  · rw [List.getElem?_concat_length, List.getElem?_eq_none le_rfl]
    simp [eq_comm]
  · rw [List.getElem?_eq_none (by simp; omega), List.getElem?_eq_none hgt.le]
    simp [hgt.ne']

theorem Indexed.concat {keys : List CStr} {values : Values σ} (h : Indexed hash keys values) {key : CStr}
    (hclip : clip key = key) (hnot : key ∉ keys) {table : Htable} {M : Finmap fun _ : CStr => ℕ}
    (hM : ∀ k i, M.lookup k = some i ↔ keys[i]? = some k)
    (hi : Utils.HtableMap.Inv hash table (M.insert key values.polls.length)) (poll : OpticsPoll)
    (gen : σ) : Indexed hash (keys ++ [key]) ⟨table, values.polls ++ [poll], gen⟩ := by
  refine ⟨?_, ?_, fun k hk => ?_, _, hi, fun k j => ?_⟩
  · exact List.nodup_append.mpr ⟨h.nodup, List.nodup_singleton _, fun a ha b hb hab => by
      rw [List.mem_singleton.mp hb] at hab
      exact hnot (hab ▸ ha)⟩
  · rw [List.length_append, List.length_append, h.length]
    rfl
  · rcases List.mem_append.mp hk with hk | hk
    · exact h.clipped k hk
    · rw [List.mem_singleton.mp hk]
      exact hclip
  · rw [getElem?_concat_iff]
    by_cases hk : k = key
    · subst hk
      have hold : keys[j]? ≠ some k := fun hj => hnot (List.mem_of_getElem? hj)
      rw [Finmap.lookup_insert, h.length, Option.some.injEq]
      exact ⟨fun he => .inr ⟨he.symm, rfl⟩, fun hj => ((hj.resolve_left hold).1).symm⟩
    · rw [Finmap.lookup_insert_of_ne _ hk, hM]
      exact ⟨.inl, fun hj => hj.resolve_right fun hc => hk hc.2⟩

/-- **The record of a lens** is the one its key leads to, or a new one behind the others. -/
theorem pollerGetValue_spec {keys : List CStr} {values values' : Values σ}
    (h : Indexed hash keys values) {ctx : PollerPollCtx} {lens : PolledLens} {i : ℕ}
    (hrun : pollerGetValue hash ctx lens (keyOf ctx lens) values = .ok (i, values')) :
    values'.gen = values.gen ∧
    ((keys[i]? = some (keyOf ctx lens) ∧ Indexed hash keys values' ∧
        values'.polls = values.polls.modify i (touchPoll ctx)) ∨
      (keyOf ctx lens ∉ keys ∧ i = keys.length ∧ Indexed hash (keys ++ [keyOf ctx lens]) values' ∧
        values'.polls = values.polls ++ [firstPoll ctx lens])) := by
  have hclip := clip_keyOf ctx lens
  obtain ⟨table, M, hi, hM, hget⟩ := h.get hclip
  unfold pollerGetValue at hrun
  rw [hget, ok_bind] at hrun
  rcases hlook : M.lookup (keyOf ctx lens) with _ | j
  · rw [hlook] at hrun
    obtain ⟨⟨table', ret⟩, hput, hrun⟩ := bind_eq_ok.mp hrun
    obtain ⟨u, -, hrun⟩ := bind_eq_ok.mp hrun
    cases hrun
    have hnot : keyOf ctx lens ∉ keys := fun hc => by
      obtain ⟨j, hj⟩ := List.mem_iff_getElem?.mp hc
      rw [(hM _ _).mpr hj] at hlook
      cases hlook
    obtain ⟨hi', -⟩ := htablePut_spec hi hput
    rw [mapPut, hclip, hlook] at hi'
    exact ⟨rfl, .inr ⟨hnot, h.length, h.concat hclip hnot hM hi' _ _, rfl⟩⟩
  · rw [hlook] at hrun
    cases hrun
    exact ⟨rfl, .inl ⟨(hM _ _).mp hlook, ⟨h.nodup, by simp [h.length], h.clipped, M, hi, hM⟩, rfl⟩⟩

/-! ### What a record has been through -/

/-- A lens polled: before, the number of its record, and after. -/
structure Visit where
  ctx : PollerPollCtx
  before : PolledLens
  record : ℕ
  after : PolledLens

/-- The key of the lens. -/
def Visit.key (v : Visit) : CStr := keyOf v.ctx v.before

/-- The visits of a run, from what it was given and what it returns. -/
def visits (works : List (PollerPollCtx × PolledLens)) (out : List (ℕ × PolledLens)) : List Visit :=
  List.zipWith (fun w o => ⟨w.1, w.2, o.1, o.2⟩) works out

/-- The lens is read into the value of a record. -/
def Reads (fpu : Fpu) (rng : Rng σ) (v : Visit) (before after : OpticsPollValue) : Prop :=
  ∃ ret s s', readValue fpu rng before v.before.data v.ctx.epoch s = .ok (ret, after, v.after.data, s')

/-- A record, and the lenses read into it, in order. -/
inductive Merged (fpu : Fpu) (rng : Rng σ) : List Visit → OpticsPoll → Prop
  | first {v : Visit} {value : OpticsPollValue}
      (h : Reads fpu rng v (firstPoll v.ctx v.before).value value) :
      Merged fpu rng [v] { firstPoll v.ctx v.before with value := value }
  | next {g : List Visit} {v : Visit} {poll : OpticsPoll} {value : OpticsPollValue}
      (hg : Merged fpu rng g poll) (h : Reads fpu rng v poll.value value) :
      Merged fpu rng (g ++ [v]) { touchPoll v.ctx poll with value := value }

theorem Merged.reads {g : List Visit} {poll : OpticsPoll} (h : Merged fpu rng g poll) {v : Visit}
    (hv : v ∈ g) : ∃ before after, Reads fpu rng v before after := by
  induction h with
  | @first u value hread =>
    rw [List.mem_singleton.mp hv]
    exact ⟨_, _, hread⟩
  | @next g u poll value hg hread ih =>
    rcases List.mem_append.mp hv with hv | hv
    · exact ih hv
    · rw [List.mem_singleton.mp hv]
      exact ⟨_, _, hread⟩

/-- The records after some visits. -/
structure Visited (hash : CStr → UInt64) (fpu : Fpu) (rng : Rng σ) (past : List Visit)
    (keys : List CStr) (values : Values σ) : Prop where
  indexed : Indexed hash keys values
  record : ∀ v ∈ past, keys[v.record]? = some v.key
  keys_iff : ∀ k, k ∈ keys ↔ ∃ v ∈ past, v.key = k
  merged : ∀ (i : ℕ) (k : CStr) (poll : OpticsPoll), keys[i]? = some k → values.polls[i]? = some poll →
    Merged fpu rng (past.filter fun v => v.key = k) poll

theorem visited_zero (gen : σ) : Visited hash fpu rng [] [] (Values.zero gen) :=
  ⟨indexed_zero gen, fun v hv => absurd hv List.not_mem_nil, fun k => by simp,
    fun i k poll hi => by simp at hi⟩

@[simp] theorem touchPoll_value (ctx : PollerPollCtx) (poll : OpticsPoll) :
    (touchPoll ctx poll).value = poll.value := by
  unfold touchPoll
  split_ifs <;> rfl

theorem Visited.put {past : List Visit} {keys keys' : List CStr} {values values' : Values σ}
    (h : Visited hash fpu rng past keys values) {v : Visit} {poll : OpticsPoll}
    {value : OpticsPollValue} (hkeys : ∀ k, k ∈ keys' ↔ k ∈ keys ∨ k = v.key)
    (hold : ∀ (j : ℕ) (k : CStr), keys[j]? = some k → keys'[j]? = some k)
    (hrec : keys'[v.record]? = some v.key)
    (hix : Indexed hash keys' values')
    (hat : ∀ poll', values'.polls[v.record]? = some poll' → poll' = { poll with value := value })
    (hoff : ∀ j, j ≠ v.record → values'.polls[j]? = values.polls[j]?)
    (hmerged : Merged fpu rng ((past.filter fun w => w.key = v.key) ++ [v])
      { poll with value := value }) :
    Visited hash fpu rng (past ++ [v]) keys' values' := by
  refine ⟨hix, fun w hw => ?_, fun k => ?_, fun i k poll' hi hp => ?_⟩
  · rcases List.mem_append.mp hw with hw | hw
    · exact hold _ _ (h.record w hw)
    · rw [List.mem_singleton.mp hw]
      exact hrec
  · rw [hkeys, h.keys_iff]
    simp only [List.mem_append, List.mem_singleton]
    constructor
    · rintro (⟨w, hw, rfl⟩ | rfl)
      · exact ⟨w, .inl hw, rfl⟩
      · exact ⟨v, .inr rfl, rfl⟩
    · rintro ⟨w, hw | rfl, rfl⟩
      · exact .inl ⟨w, hw, rfl⟩
      · exact .inr rfl
  · by_cases hk : k = v.key
    · subst hk
      cases hix.index_inj hi hrec
      rw [hat poll' hp]
      simpa using hmerged
    · have hne : i ≠ v.record := fun hc => by
        rw [hc, hrec] at hi
        exact hk (Option.some.inj hi).symm
      rw [hoff i hne] at hp
      have hlt : i < keys.length := by
        rw [← h.indexed.length]
        exact (List.getElem?_eq_some_iff.mp hp).1
      have hik : keys[i]? = some k := by
        have := hold i _ (List.getElem?_eq_getElem hlt)
        rw [hi] at this
        rw [List.getElem?_eq_getElem hlt, this]
      have hfilter : (past ++ [v]).filter (fun w => w.key = k) = past.filter fun w => w.key = k := by
        simp [List.filter_append, Ne.symm hk]
      rw [hfilter]
      exact h.merged i k poll' hik hp

/-- **A lens is read into the record of its key.** -/
theorem Visited.poll {past : List Visit} {keys : List CStr} {values values' : Values σ}
    (h : Visited hash fpu rng past keys values) {ctx : PollerPollCtx} {lens lens' : PolledLens}
    {i : ℕ} (hrun : pollerPollLens hash fpu rng ctx lens values = .ok ((i, lens'), values')) :
    ∃ keys', Visited hash fpu rng (past ++ [⟨ctx, lens, i, lens'⟩]) keys' values' := by
  obtain ⟨key, hkey, hstr⟩ := pollKey_spec ctx lens
  unfold pollerPollLens at hrun
  rw [hkey, ok_bind, hstr] at hrun
  obtain ⟨⟨i1, values1⟩, hget, hrun⟩ := bind_eq_ok.mp hrun
  dsimp only at hrun
  obtain ⟨hgen, hcase⟩ := pollerGetValue_spec h.indexed hget
  rcases hpoll : values1.polls[i1]? with _ | poll
  · rw [hpoll] at hrun
    cases hrun
  rw [hpoll] at hrun
  obtain ⟨⟨ret, value, data, gen⟩, hread, hrun⟩ := bind_eq_ok.mp hrun
  cases hrun
  obtain ⟨hi, hset⟩ := List.getElem?_eq_some_iff.mp hpoll
  have hat : ∀ poll', (values1.polls.set i { poll with value := value })[i]? = some poll' →
      poll' = { poll with value := value } := fun poll' hp => by
    rw [List.getElem?_set_self hi] at hp
    exact (Option.some.inj hp).symm
  rcases hcase with ⟨hik, hix1, hpolls⟩ | ⟨hnot, hlen, hix1, hpolls⟩
  · -- a record that is there
    have hold : ∃ poll0, values.polls[i]? = some poll0 ∧ poll = touchPoll ctx poll0 := by
      rw [hpolls, List.getElem?_modify_eq] at hpoll
      obtain ⟨poll0, h0, ht⟩ := Option.map_eq_some_iff.mp hpoll
      exact ⟨poll0, h0, ht.symm⟩
    obtain ⟨poll0, h0, rfl⟩ := hold
    refine ⟨keys, h.put (v := ⟨ctx, lens, i, ⟨lens.name, data⟩⟩) (fun k => ?_) (fun j k hj => hj) hik
      (hix1.setPoll _ _ _) hat (fun j hj => ?_)
        (.next (h.merged i _ poll0 hik h0) ⟨ret, values1.gen, gen, ?_⟩)⟩
    · exact ⟨.inl, fun hc => hc.elim id fun hk => hk ▸ List.mem_of_getElem? hik⟩
    · dsimp only
      rw [List.getElem?_set_ne (Ne.symm hj), hpolls, List.getElem?_modify_ne _ _ (Ne.symm hj)]
    · rw [touchPoll_value] at hread
      exact hread
  · -- a record that is made
    have hfirst : poll = firstPoll ctx lens := by
      rw [hpolls, hlen, ← h.indexed.length, List.getElem?_concat_length] at hpoll
      exact (Option.some.inj hpoll).symm
    subst hfirst
    have hnone : past.filter (fun w => w.key = keyOf ctx lens) = [] := by
      refine List.filter_eq_nil_iff.mpr fun w hw hk => hnot ?_
      exact (h.keys_iff _).mpr ⟨w, hw, of_decide_eq_true hk⟩
    refine ⟨keys ++ [keyOf ctx lens], h.put (v := ⟨ctx, lens, i, ⟨lens.name, data⟩⟩) (fun k => ?_)
      (fun j k hj => ?_) ?_ (hix1.setPoll _ _ _) hat (fun j hj => ?_) ?_⟩
    · simp [Visit.key]
    · rw [List.getElem?_append_left (List.getElem?_eq_some_iff.mp hj).1]
      exact hj
    · dsimp only
      rw [hlen, List.getElem?_concat_length]
      rfl
    · dsimp only at hj ⊢
      rw [List.getElem?_set_ne (Ne.symm hj), hpolls]
      rcases Nat.lt_or_ge j values.polls.length with hlt | hge
      · rw [List.getElem?_append_left hlt]
      · rw [hlen, ← h.indexed.length] at hj
        rw [List.getElem?_eq_none (by simp; omega), List.getElem?_eq_none hge]
    · show Merged fpu rng (past.filter (fun w => w.key = keyOf ctx lens) ++ _) _
      rw [hnone]
      exact .first ⟨ret, values1.gen, gen, hread⟩

theorem pollEach_length {works : List (PollerPollCtx × PolledLens)} : ∀ {values values' : Values σ}
    {out : List (ℕ × PolledLens)}, pollEach hash fpu rng works values = .ok (out, values') →
    out.length = works.length := by
  induction works with
  | nil =>
    intro values values' out h
    cases h
    rfl
  | cons w rest ih =>
    intro values values' out h
    obtain ⟨r, -, h⟩ := bind_eq_ok.mp h
    obtain ⟨r', hrest, h⟩ := bind_eq_ok.mp h
    cases h
    rw [List.length_cons, List.length_cons, ih hrest]

/-- **A run of polls** reads every lens into the record of its key. -/
theorem Visited.pollEach {works : List (PollerPollCtx × PolledLens)} : ∀ {past : List Visit}
    {keys : List CStr} {values values' : Values σ} {out : List (ℕ × PolledLens)},
    Visited hash fpu rng past keys values →
    Polling.pollEach hash fpu rng works values = .ok (out, values') →
    ∃ keys', Visited hash fpu rng (past ++ visits works out) keys' values' := by
  induction works with
  | nil =>
    intro past keys values values' out h hrun
    cases hrun
    exact ⟨keys, by simpa [visits] using h⟩
  | cons w rest ih =>
    obtain ⟨ctx, lens⟩ := w
    intro past keys values values' out h hrun
    obtain ⟨⟨⟨i, lens'⟩, values1⟩, hone, hrun⟩ := bind_eq_ok.mp hrun
    obtain ⟨⟨others, values2⟩, hrest, hrun⟩ := bind_eq_ok.mp hrun
    cases hrun
    obtain ⟨keys1, h1⟩ := h.poll hone
    obtain ⟨keys2, h2⟩ := ih h1 hrest
    refine ⟨keys2, ?_⟩
    rwa [List.append_assoc] at h2

end Index

/-! ### Region by region -/

section Items
variable {σ : Type} {hash : CStr → UInt64} {fpu : Fpu} {rng : Rng σ}

/-- The lenses of all regions, in the order in which they are polled. -/
def works (host : CStr) (ts : ℕ) (items : List PollerListItem) : List (PollerPollCtx × PolledLens) :=
  items.flatMap fun item => item.lenses.map fun lens => (pollCtx host ts item, lens)

theorem pollEach_append {a b : List (PollerPollCtx × PolledLens)} : ∀ {values : Values σ},
    pollEach hash fpu rng (a ++ b) values = (do
      let (x, values) ← pollEach hash fpu rng a values
      let (y, values) ← pollEach hash fpu rng b values
      .ok (x ++ y, values)) := by
  induction a with
  | nil =>
    intro values
    rw [List.nil_append, pollEach]
    simp only [ok_bind]
    rcases pollEach hash fpu rng b values with e | ⟨y, values1⟩ <;> rfl
  | cons w a ih =>
    intro values
    rw [List.cons_append, pollEach, pollEach]
    rcases pollerPollLens hash fpu rng w.1 w.2 values with e | ⟨polled, values1⟩
    · rfl
    · simp only [ok_bind, ih]
      rcases pollEach hash fpu rng a values1 with e | ⟨x, values2⟩
      · rfl
      · simp only [ok_bind]
        rcases pollEach hash fpu rng b values2 with e | ⟨y, values3⟩ <;> rfl

/-- The loop over the regions is one run over all their lenses. -/
theorem pollItems_eq {host : CStr} {ts : ℕ} {items : List PollerListItem} : ∀ {values : Values σ},
    pollEach hash fpu rng (works host ts items) values = (do
      let (out, values) ← pollItems hash fpu rng host ts items values
      .ok (out.flatten, values)) := by
  induction items with
  | nil => exact rfl
  | cons item rest ih =>
    intro values
    have hworks : works host ts (item :: rest) =
        item.lenses.map (fun lens => (pollCtx host ts item, lens)) ++ works host ts rest := by
      simp [works]
    rw [hworks, pollEach_append, pollItems, pollerPollOptics]
    rcases pollEach hash fpu rng (item.lenses.map fun lens => (pollCtx host ts item, lens)) values
      with e | ⟨x, values1⟩
    · rfl
    · simp only [ok_bind, ih]
      rcases pollItems hash fpu rng host ts rest values1 with e | ⟨y, values2⟩ <;> rfl

/-- **A poll** reads every lens of every region into the record of its key. -/
theorem pollItems_visited {host : CStr} {ts : ℕ} {items : List PollerListItem} {gen : σ}
    {out : List (List (ℕ × PolledLens))} {values : Values σ}
    (h : pollItems hash fpu rng host ts items (Values.zero gen) = .ok (out, values)) :
    out.flatten.length = (works host ts items).length ∧
      ∃ keys, Visited hash fpu rng (visits (works host ts items) out.flatten) keys values := by
  have hrun : pollEach hash fpu rng (works host ts items) (Values.zero gen) =
      .ok (out.flatten, values) := by
    rw [pollItems_eq, h]
    rfl
  exact ⟨pollEach_length hrun, (visited_zero gen).pollEach hrun⟩

theorem pollItems_lengths {host : CStr} {ts : ℕ} {items : List PollerListItem} :
    ∀ {values values' : Values σ} {out : List (List (ℕ × PolledLens))},
    pollItems hash fpu rng host ts items values = .ok (out, values') →
    List.Forall₂ (fun item polled => polled.length = item.lenses.length) items out := by
  induction items with
  | nil =>
    intro values values' out h
    cases h
    exact .nil
  | cons item rest ih =>
    intro values values' out h
    obtain ⟨r, hone, h⟩ := bind_eq_ok.mp h
    obtain ⟨r', hrest, h⟩ := bind_eq_ok.mp h
    cases h
    refine .cons ?_ (ih hrest)
    rw [pollEach_length hone, List.length_map]

end Items

end Optics.Polling
