import Optics.Utils.HtableGrowth

/-! # Iterating hash tables and their difference

`utils/htable.c`: `htable_next` leads from one bucket to the next one that holds a key, and
`htable_diff` inserts into a table what it finds in one table and not in another. A bucket is named by
its position; iterating visits the `occupied` positions from the left (`htableEach_eq`).

`htableDiff_spec` says what a difference does to the maps of the tables, `htableDiff_returns` that it
returns where the hashes of the keys are apart. -/

namespace Optics.Utils.HtableDiff

open Optics.Base Optics.Lib.Probing Optics.Utils.Htables Optics.Utils.HtableMap
open Optics.Utils.HtableGrowth

/-! ### The functions -/

/-- The loop of `htable_next`, with the number of buckets that are left. -/
def nextFrom (table : List (Bucket CStr ℕ)) : ℕ → ℕ → Option ℕ
  | 0, _ => none
  | left + 1, i => if (bucketAt table i).key.isSome then some i else nextFrom table left (i + 1)

/-- `htable_next`. -/
def htableNext (ht : Htable) (bucket : Option ℕ) : Option ℕ :=
  if ht.table.isEmpty then none
  else
    let i := match bucket with
      | some j => j + 1
      | none => 0
    nextFrom ht.table (ht.cap - i) i

/-- The loop over a table: the buckets that `htable_next` leads to. -/
def htableEach (ht : Htable) : ℕ → Option ℕ → Outcome (List ℕ)
  | 0, _ => .error .diverge
  | _ + 1, none => .ok []
  | fuel + 1, some it => do
    let rest ← htableEach ht fuel (htableNext ht (some it))
    .ok (it :: rest)

section Diff
variable (hash : CStr → UInt64)

/-- The body of the loop of `htable_diff`: the tables `b` and `result`. -/
def diffBody (bucket : Bucket CStr ℕ) (b result : Htable) : Outcome (Htable × Htable) :=
  match bucket.key with
  | none => .error .segv
  | some key => do
    let (b, ret) ← htableGet hash b key
    if ret.ok then .ok (b, result)
    else do
      let (result, _) ← htablePut hash result key bucket.value
      .ok (b, result)

/-- The loop of `htable_diff`. -/
def diffFrom (a : Htable) : ℕ → Option ℕ → Htable → Htable → Outcome (Htable × Htable)
  | 0, _, _, _ => .error .diverge
  | _ + 1, none, b, result => .ok (b, result)
  | fuel + 1, some it, b, result => do
    let (b, result) ← diffBody hash (bucketAt a.table it) b result
    diffFrom a fuel (htableNext a (some it)) b result

/-- `htable_diff`, of three tables: what becomes of `b` and `result`. -/
def htableDiff (a b result : Htable) : Outcome (Htable × Htable) :=
  diffFrom hash a (a.cap + 1) (htableNext a none) b result

end Diff

/-! ### Iteration -/

/-- The positions from `i` on that hold a key. -/
def occupied (ht : Htable) (i : ℕ) : List ℕ :=
  (List.range' i (ht.cap - i)).filter fun j => (bucketAt ht.table j).key.isSome

/-- The key and the value of a bucket. -/
def entry (bucket : Bucket CStr ℕ) : Option (CStr × ℕ) :=
  bucket.key.map fun key => (key, bucket.value)

variable {ht : Htable}

theorem nextFrom_eq (table : List (Bucket CStr ℕ)) : ∀ left i, nextFrom table left i =
    ((List.range' i left).filter fun j => (bucketAt table j).key.isSome).head?
  | 0, _ => rfl
  | left + 1, i => by
    rw [nextFrom, List.range'_succ]
    by_cases hkey : (bucketAt table i).key.isSome = true
    · rw [if_pos hkey, List.filter_cons, if_pos hkey]
      rfl
    · rw [if_neg hkey, List.filter_cons, if_neg hkey, nextFrom_eq table left (i + 1)]

/-- `htable_next` finds the first position behind a bucket. -/
theorem htableNext_eq (hlen : ht.table.length = ht.cap) (bucket : Option ℕ) :
    htableNext ht bucket = (occupied ht (bucket.elim 0 (· + 1))).head? := by
  unfold htableNext occupied
  by_cases hempty : ht.table.isEmpty = true
  · have hcap : ht.cap = 0 := by
      rw [← hlen, List.isEmpty_iff.mp hempty]
      rfl
    rw [if_pos hempty, hcap, Nat.zero_sub]
    rfl
  · rw [if_neg hempty]
    cases bucket with
    | none => exact nextFrom_eq ht.table _ _
    | some j => exact nextFrom_eq ht.table _ _

theorem occupied_tail {j : ℕ} {js : List ℕ} : ∀ {left i : ℕ}, ht.cap - i = left →
    occupied ht i = j :: js → occupied ht (j + 1) = js
  | 0, i, hleft, h => by
    unfold occupied at h
    rw [hleft] at h
    cases h
  | left + 1, i, hleft, h => by
    have hnext : ht.cap - (i + 1) = left := by omega
    have hcons : occupied ht i = if (bucketAt ht.table i).key.isSome then
        i :: occupied ht (i + 1) else occupied ht (i + 1) := by
      unfold occupied
      rw [hleft, hnext, List.range'_succ, List.filter_cons]
    rw [hcons] at h
    split_ifs at h
    · cases h
      rfl
    · exact occupied_tail hnext h

/-- **Iterating** from the null pointer leads to the occupied positions, one after the other, and then
to the null pointer. -/
theorem htableEach_eq (hlen : ht.table.length = ht.cap) : ∀ {js : List ℕ} {i fuel : ℕ},
    occupied ht i = js → js.length < fuel → htableEach ht fuel js.head? = .ok js
  | [], _, fuel + 1, _, _ => rfl
  | j :: js, i, fuel + 1, h, hfuel => by
    have hrest := occupied_tail rfl h
    have ih := htableEach_eq hlen hrest (Nat.lt_of_succ_lt_succ hfuel)
    rw [List.head?_cons, htableEach, htableNext_eq hlen]
    show (htableEach ht fuel (occupied ht (j + 1)).head? >>= _) = _
    rw [hrest, ih]
    rfl

theorem occupied_length_le : (occupied ht 0).length ≤ ht.cap := by
  have hle := List.length_filter_le (fun j => (bucketAt ht.table j).key.isSome)
    (List.range' 0 (ht.cap - 0))
  rwa [List.length_range', Nat.sub_zero] at hle

theorem filterMap_occupied (hlen : ht.table.length = ht.cap) :
    (occupied ht 0).filterMap (fun j => entry (bucketAt ht.table j)) = htableItems ht := by
  have htable : (List.range' 0 (ht.cap - 0)).map (bucketAt ht.table) = ht.table := by
    refine List.ext_getElem (by simp [hlen]) fun i h1 h2 => ?_
    rw [List.getElem_map, List.getElem_range', bucketAt_eq_getElem (by omega)]
    congr 1
    omega
  have hentry : ∀ j, (if (bucketAt ht.table j).key.isSome then entry (bucketAt ht.table j) else none) =
      entry (bucketAt ht.table j) := by
    intro j
    unfold entry
    cases (bucketAt ht.table j).key with
    | none => rfl
    | some key => rfl
  rw [occupied, List.filterMap_filter]
  simp only [hentry]
  exact (List.filterMap_map ..).symm.trans (congrArg (List.filterMap entry) htable)

/-! ### Differences of maps -/

/-- A key of a table that is not in `B`, put into `R`. -/
def diffPut (B R : KeyMap) (item : CStr × ℕ) : KeyMap :=
  if item.1 ∈ B then R else (mapPut R item.1 item.2).1

/-- The items whose keys are not in `B`, put into `R`. -/
def diffMap (B : KeyMap) : KeyMap → List (CStr × ℕ) → KeyMap
  | R, [] => R
  | R, item :: items => diffMap B (diffPut B R item) items

variable {B R : KeyMap} {key : CStr} {value : ℕ}

theorem lookup_diffPut (hclip : clip key = key) (k : CStr) :
    (diffPut B R (key, value)).lookup k =
      if k = key ∧ k ∉ B ∧ R.lookup k = none then some value else R.lookup k := by
  unfold diffPut mapPut
  dsimp only
  rw [hclip]
  by_cases hB : key ∈ B
  · rw [if_pos hB, if_neg (fun h => h.2.1 (h.1 ▸ hB))]
  rw [if_neg hB]
  cases hR : R.lookup key with
  | some old =>
    rw [if_neg]
    rintro ⟨rfl, -, hnone⟩
    rw [hR] at hnone
    cases hnone
  | none =>
    by_cases hk : k = key
    · subst hk
      rw [if_pos ⟨rfl, hB, hR⟩]
      exact Finmap.lookup_insert R
    · rw [if_neg (fun h => hk h.1)]
      exact Finmap.lookup_insert_of_ne R hk

/-- **The difference of maps**: a value of `R` stays, another key gets the value of its item unless it
is in `B`. -/
theorem lookup_diffMap {k : CStr} {v : ℕ} : ∀ {items : List (CStr × ℕ)} {R : KeyMap},
    (∀ item ∈ items, clip item.1 = item.1) → (items.map Prod.fst).Nodup →
      ((diffMap B R items).lookup k = some v ↔
        R.lookup k = some v ∨ R.lookup k = none ∧ k ∉ B ∧ (k, v) ∈ items)
  | [], R, _, _ => by simp [diffMap]
  | (key, value) :: items, R, hclip, hnodup => by
    obtain ⟨hnew, hnodup⟩ := List.nodup_cons.mp hnodup
    have ih := lookup_diffMap (k := k) (v := v) (R := diffPut B R (key, value))
      (fun item h => hclip item (List.mem_cons_of_mem _ h)) hnodup
    rw [diffMap, ih, lookup_diffPut (hclip _ (List.mem_cons_self ..)), List.mem_cons]
    by_cases hk : k = key ∧ k ∉ B ∧ R.lookup k = none
    · obtain ⟨rfl, hB, hR⟩ := hk
      have hother : (k, v) ∉ items := fun h => hnew (List.mem_map.mpr ⟨_, h, rfl⟩)
      rw [if_pos ⟨rfl, hB, hR⟩, hR]
      constructor
      · rintro (h | ⟨h, -⟩)
        · cases h
          exact .inr ⟨rfl, hB, .inl rfl⟩
        · cases h
      · rintro (h | ⟨-, -, h | h⟩)
        · cases h
        · cases h
          exact .inl rfl
        · exact absurd h hother
    · rw [if_neg hk]
      refine or_congr_right (and_congr_right fun hR => and_congr_right fun hB => ?_)
      exact (or_iff_right fun h => hk ⟨congrArg Prod.fst h, hB, hR⟩).symm

/-! ### Differences of tables -/

section Tables
variable {hash : CStr → UInt64} {a b result : Htable} {A : KeyMap} {bucket : Bucket CStr ℕ}

theorem ofLookup_ok {o : Option ℕ} : (ofLookup o).ok = true ↔ o ≠ none := by
  cases o with
  | none => exact ⟨fun h => (nomatch h), fun h => absurd rfl h⟩
  | some v => exact ⟨fun _ h => (nomatch h), fun _ => rfl⟩

theorem diffBody_eq (result : Htable) (hb : Inv hash b B) (hkey : bucket.key = some key)
    (hclip : clip key = key) :
    ∃ b', Inv hash b' B ∧ diffBody hash bucket b result =
      if key ∈ B then .ok (b', result)
      else htablePut hash result key bucket.value >>= fun r => .ok (b', r.1) := by
  obtain ⟨b', hget, hb', -⟩ := htableGet_spec hb key
  refine ⟨b', hb', ?_⟩
  rw [hclip] at hget
  rw [diffBody, hkey]
  dsimp only
  rw [hget, ok_bind]
  have hmem : (ofLookup (B.lookup key)).ok = true ↔ key ∈ B := by
    rw [ofLookup_ok, ne_eq, Finmap.lookup_eq_none, not_not]
  by_cases hB : key ∈ B
  · rw [if_pos hB, if_pos (hmem.mpr hB)]
  · rw [if_neg hB, if_neg (fun h => hB (hmem.mp h))]

/-- **The body** does to the maps what `diffPut` says, and can only fail to end. -/
theorem diffBody_spec (hb : Inv hash b B) (hr : Inv hash result R) (hkey : bucket.key = some key)
    (hclip : clip key = key) :
    (∀ e, diffBody hash bucket b result = .error e → e = .diverge) ∧
    ∀ b' result', diffBody hash bucket b result = .ok (b', result') →
      Inv hash b' B ∧ Inv hash result' (diffPut B R (key, bucket.value)) := by
  obtain ⟨b1, hb1, hbody⟩ := diffBody_eq result hb hkey hclip
  rw [hbody]
  unfold diffPut
  by_cases hB : key ∈ B
  · rw [if_pos hB, if_pos hB]
    refine ⟨fun e h => (nomatch h), fun b' result' h => ?_⟩
    cases h
    exact ⟨hb1, hr⟩
  · rw [if_neg hB, if_neg hB]
    cases hput : htablePut hash result key bucket.value with
    | error e =>
      refine ⟨fun e' h => ?_, fun b' result' h => (nomatch h)⟩
      cases h
      exact htablePutFrom_fault hput
    | ok res =>
      refine ⟨fun e h => (nomatch h), fun b' result' h => ?_⟩
      cases h
      exact ⟨hb1, (htablePut_spec hr hput).1⟩

theorem key_of_mem_occupied (ha : Inv hash a A) {i j : ℕ} (hj : j ∈ occupied a i) :
    ∃ key, (bucketAt a.table j).key = some key ∧ clip key = key ∧ key ∈ A.keys ∧
      entry (bucketAt a.table j) = some (key, (bucketAt a.table j).value) := by
  obtain ⟨key, hkey⟩ := Option.isSome_iff_exists.mp (List.mem_filter.mp hj).2
  have hstored : Stored a.table key (bucketAt a.table j).value := ⟨j, hkey, rfl⟩
  refine ⟨key, hkey, ha.clipped hstored, ?_, ?_⟩
  · exact Finmap.mem_keys.mpr (Finmap.mem_of_lookup_eq_some ((ha.rep _ _).mpr hstored))
  · rw [entry, hkey]
    rfl

/-- **The loop** puts the items of the positions that are left, and can only fail to end. -/
theorem diffFrom_spec (ha : Inv hash a A) : ∀ {js : List ℕ} {i fuel : ℕ} {b result : Htable}
    {R : KeyMap}, occupied a i = js → js.length < fuel → Inv hash b B → Inv hash result R →
    (∀ e, diffFrom hash a fuel js.head? b result = .error e → e = .diverge) ∧
    ∀ b' result', diffFrom hash a fuel js.head? b result = .ok (b', result') →
      Inv hash b' B ∧
        Inv hash result' (diffMap B R (js.filterMap fun j => entry (bucketAt a.table j)))
  | [], _, fuel + 1, b, result, R, _, _, hb, hr => by
    refine ⟨fun e h => (nomatch h), fun b' result' h => ?_⟩
    cases h
    exact ⟨hb, hr⟩
  | j :: js, i, fuel + 1, b, result, R, h, hfuel, hb, hr => by
    obtain ⟨key, hkey, hclip, -, hentry⟩ := key_of_mem_occupied ha (h ▸ List.mem_cons_self ..)
    obtain ⟨hfault, hok⟩ := diffBody_spec hb hr hkey hclip
    have hrest := occupied_tail rfl h
    have hnext : htableNext a (some j) = js.head? := by
      rw [htableNext_eq ha.length]
      exact congrArg List.head? hrest
    have hitems : (j :: js).filterMap (fun j => entry (bucketAt a.table j)) =
        (key, (bucketAt a.table j).value) :: js.filterMap fun j => entry (bucketAt a.table j) := by
      rw [List.filterMap_cons, hentry]
    rw [List.head?_cons, diffFrom, hnext, hitems, diffMap]
    cases hbody : diffBody hash (bucketAt a.table j) b result with
    | error e =>
      refine ⟨fun e' h => ?_, fun b' result' h => (nomatch h)⟩
      cases h
      exact hfault e hbody
    | ok res =>
      obtain ⟨b1, result1⟩ := res
      obtain ⟨hb1, hr1⟩ := hok b1 result1 hbody
      exact diffFrom_spec ha hrest (Nat.lt_of_succ_lt_succ hfuel) hb1 hr1

theorem htableDiff_eq (ha : Inv hash a A) :
    htableDiff hash a b result = diffFrom hash a (a.cap + 1) (occupied a 0).head? b result := by
  rw [htableDiff, htableNext_eq ha.length]
  rfl

/-- **A difference of tables** is the difference of their maps, and can only fail to end. -/
theorem htableDiff_spec (ha : Inv hash a A) (hb : Inv hash b B) (hr : Inv hash result R) :
    (∀ e, htableDiff hash a b result = .error e → e = .diverge) ∧
    ∀ b' result', htableDiff hash a b result = .ok (b', result') →
      Inv hash b' B ∧ Inv hash result' (diffMap B R (htableItems a)) := by
  rw [htableDiff_eq ha, ← filterMap_occupied ha.length]
  exact diffFrom_spec ha rfl (Nat.lt_succ_of_le occupied_length_le) hb hr

/-! ### Differences return -/

variable {n : ℕ} {S : Finset CStr}

theorem keys_diffPut (hclip : clip key = key) (hkey : key ∈ S) (hR : R.keys ⊆ S) :
    (diffPut B R (key, value)).keys ⊆ S := by
  intro k hk
  obtain ⟨v, hv⟩ := Finmap.mem_iff.mp (Finmap.mem_keys.mp hk)
  rw [lookup_diffPut hclip] at hv
  split_ifs at hv with h
  · exact h.1 ▸ hkey
  · exact hR (Finmap.mem_keys.mpr (Finmap.mem_of_lookup_eq_some hv))

theorem diffBody_returns (hA : Apart hash n S) (hS : ∀ k ∈ S, clip k = k) (hn : n < 64)
    (hb : Inv hash b B) (hr : Inv hash result R) (hR : R.keys ⊆ S) (hready : Ready hash n S result)
    (hkey : bucket.key = some key) (hmem : key ∈ S) :
    ∃ b' result', diffBody hash bucket b result = .ok (b', result') ∧ Ready hash n S result' := by
  have hclip := hS key hmem
  obtain ⟨b1, -, hbody⟩ := diffBody_eq result hb hkey hclip
  rw [hbody]
  by_cases hB : key ∈ B
  · rw [if_pos hB]
    exact ⟨b1, result, rfl, hready⟩
  · obtain ⟨result', ret, hput, hready'⟩ :=
      hready.put hA hS hn hr hR (hclip.symm ▸ hmem) bucket.value
    rw [if_neg hB, hput, ok_bind]
    exact ⟨b1, result', rfl, hready'⟩

theorem diffFrom_returns (hA : Apart hash n S) (hS : ∀ k ∈ S, clip k = k) (hn : n < 64)
    (ha : Inv hash a A) (hAS : A.keys ⊆ S) : ∀ {js : List ℕ} {i fuel : ℕ} {b result : Htable}
    {R : KeyMap}, occupied a i = js → js.length < fuel → Inv hash b B → Inv hash result R →
    R.keys ⊆ S → Ready hash n S result →
    ∃ b' result', diffFrom hash a fuel js.head? b result = .ok (b', result')
  | [], _, fuel + 1, b, result, _, _, _, _, _, _, _ => ⟨b, result, rfl⟩
  | j :: js, i, fuel + 1, b, result, R, h, hfuel, hb, hr, hR, hready => by
    obtain ⟨key, hkey, hclip, hmem, -⟩ := key_of_mem_occupied ha (h ▸ List.mem_cons_self ..)
    obtain ⟨b1, result1, hbody, hready1⟩ :=
      diffBody_returns hA hS hn hb hr hR hready hkey (hAS hmem)
    obtain ⟨hb1, hr1⟩ := (diffBody_spec hb hr hkey hclip).2 b1 result1 hbody
    have hrest := occupied_tail rfl h
    have hnext : htableNext a (some j) = js.head? := by
      rw [htableNext_eq ha.length]
      exact congrArg List.head? hrest
    obtain ⟨b', result', hrun⟩ := diffFrom_returns hA hS hn ha hAS hrest
      (Nat.lt_of_succ_lt_succ hfuel) hb1 hr1 (keys_diffPut hclip (hAS hmem) hR) hready1
    refine ⟨b', result', ?_⟩
    rw [List.head?_cons, diffFrom, hnext, hbody]
    exact hrun

/-- **A difference returns** where no two of the keys it puts together have the same hash modulo some
`2 ^ n`. -/
theorem htableDiff_returns (ha : Inv hash a A) (hb : Inv hash b B) (hr : Inv hash result R)
    (hn : n < 64) (hcap : result.cap < 2 ^ 63) (hA : Apart hash n (keysOf a ∪ keysOf result)) :
    ∃ b' result', htableDiff hash a b result = .ok (b', result') := by
  rw [keysOf_eq ha, keysOf_eq hr] at hA
  have hS : ∀ k ∈ A.keys ∪ R.keys, clip k = k := by
    intro k hk
    rcases Finset.mem_union.mp hk with h | h
    · exact clip_of_mem_insert k ha k (Finset.mem_insert_of_mem h)
    · exact clip_of_mem_insert k hr k (Finset.mem_insert_of_mem h)
  rw [htableDiff_eq ha]
  exact diffFrom_returns hA hS hn ha Finset.subset_union_left rfl
    (Nat.lt_succ_of_le occupied_length_le) hb hr Finset.subset_union_right (.inl hcap)

end Tables

/-! ### Iteration and difference of reachable tables -/

/-- **Iteration and difference are exact.** Iterating a table from the null pointer leads to buckets
with the entries of the table, each key once, and to the null pointer at the end. Where the difference
of two tables is put into a third one, the third has its own entries and those of the first whose keys
are neither in it nor in the second, and the entries of the second stay (the first is only read). The
difference fails in no other way than by not returning, and it returns where no two keys of the first
and the third table have the same hash modulo some `2 ^ n`. -/
theorem htable_iteration_difference (hash : CStr → UInt64) {a b result : Htable}
    (ha : Reachable hash a) (hb : Reachable hash b) (hr : Reachable hash result) :
    (∃ (js : List ℕ) (items : List (CStr × ℕ)), htableEach a (a.cap + 1) (htableNext a none) = .ok js ∧
      js.map (fun j => entry (bucketAt a.table j)) = items.map some ∧
      (items.map Prod.fst).Nodup ∧ ∀ k v, (k, v) ∈ items ↔ Stored a.table k v) ∧
    (∀ b' result', htableDiff hash a b result = .ok (b', result') →
      (∀ k v, Stored b'.table k v ↔ Stored b.table k v) ∧
      ∀ k v, Stored result'.table k v ↔ Stored result.table k v ∨
        (∀ w, ¬Stored result.table k w) ∧ (∀ w, ¬Stored b.table k w) ∧ Stored a.table k v) ∧
    (∀ e, htableDiff hash a b result = .error e → e = .diverge) ∧
    ∀ n < 64, result.cap < 2 ^ 63 → Apart hash n (keysOf a ∪ keysOf result) →
      ∃ b' result', htableDiff hash a b result = .ok (b', result') := by
  obtain ⟨A, ha⟩ := ha.inv
  obtain ⟨B, hb⟩ := hb.inv
  obtain ⟨R, hr⟩ := hr.inv
  obtain ⟨hfault, hok⟩ := htableDiff_spec ha hb hr
  refine ⟨⟨occupied a 0, htableItems a, ?_, ?_, htableItems_nodup ha, fun k v => mem_htableItems⟩,
    fun b' result' h => ?_, hfault, fun n hn hcap hA => htableDiff_returns ha hb hr hn hcap hA⟩
  · rw [htableNext_eq ha.length]
    exact htableEach_eq ha.length rfl (Nat.lt_succ_of_le occupied_length_le)
  · rw [← filterMap_occupied ha.length, List.map_filterMap_some_eq_filter_map_isSome]
    refine (List.filter_eq_self.mpr fun o ho => ?_).symm
    obtain ⟨j, hj, rfl⟩ := List.mem_map.mp ho
    obtain ⟨key, -, -, -, hentry⟩ := key_of_mem_occupied ha hj
    rw [hentry]
    rfl
  · obtain ⟨hb', hr'⟩ := hok b' result' h
    refine ⟨fun k v => (hb'.rep k v).symm.trans (hb.rep k v), fun k v => ?_⟩
    have hclip : ∀ item ∈ htableItems a, clip item.1 = item.1 := fun item hitem =>
      ha.clipped (mem_htableItems.mp hitem)
    rw [← hr'.rep, lookup_diffMap hclip (htableItems_nodup ha), hr.rep, ← hr.rep.notMem_iff,
      ← hb.rep.notMem_iff, Finmap.lookup_eq_none, mem_htableItems]

theorem zero_notMem_b : (0 : UInt8) ∉ [(98 : UInt8)] := by decide

/-- The name `b`. -/
def nameB : CStr := ⟨[98], zero_notMem_b⟩

/-- A table of two keys, both in the window of the first bucket. -/
def twoKeys : Htable :=
  ⟨2, 8, ⟨some nameA, 1⟩ :: ⟨some nameB, 2⟩ :: List.replicate 6 ⟨none, 0⟩⟩

/-- A table of the second of them. -/
def oneKey : Htable := ⟨1, 8, ⟨some nameB, 9⟩ :: List.replicate 7 ⟨none, 0⟩⟩

theorem htable_iteration_difference_two : ∃ b' result',
    htableDiff (fun _ => 0) twoKeys oneKey Htable.zero = .ok (b', result') ∧
      Stored result'.table nameA 1 := by
  have ha : Reachable (fun _ => 0) twoKeys := ⟨[.put nameA 1, .put nameB 2], _, rfl⟩
  have hb : Reachable (fun _ => 0) oneKey := ⟨[.put nameB 9], _, rfl⟩
  have hr : Reachable (fun _ => 0) Htable.zero := ⟨[], _, rfl⟩
  have hrun : ∃ b' result',
      htableDiff (fun _ => 0) twoKeys oneKey Htable.zero = .ok (b', result') := ⟨_, _, rfl⟩
  obtain ⟨b', result', hrun⟩ := hrun
  refine ⟨b', result', hrun, ?_⟩
  have hdiff := ((htable_iteration_difference (fun _ => 0) ha hb hr).2.1 b' result' hrun).2 nameA 1
  refine hdiff.mpr (.inr ⟨fun w h => ?_, fun w h => ?_, stored_iff_mem.mpr (List.mem_cons_self ..)⟩)
  · exact absurd (stored_iff_mem.mp h) List.not_mem_nil
  · have hmem := stored_iff_mem.mp h
    simp [oneKey, nameA, nameB] at hmem

end Optics.Utils.HtableDiff
