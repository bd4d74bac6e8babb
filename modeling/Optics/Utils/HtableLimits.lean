import Optics.Utils.HtableGrowth

/-! # Where growing a hash table ends

A capacity is a word. Below the largest one, an insertion returns if no two of the keys have the same
hash modulo some `2 ^ k` with `k ≤ 63` (`htable_put_bounded`). The largest capacity is `2 ^ 63`, and
doubling it is a call of `htable_resize` with 0, which does nothing: an insertion that finds its window
full there calls itself for ever (`htablePutFrom_stuck`), and that a window is full there is
possible for keys whose hashes differ (`crowded`), as well as for keys whose hashes differ modulo
`2 ^ 63` after a deletion (`displaced`). -/

namespace Optics.Utils.HtableLimits

open Optics.Base Optics.Lib.Probing Optics.Utils.Htables Optics.Utils.HtableMap
open Optics.Utils.HtableGrowth

/-! ### Tables by their layout -/

/-- A table that a run leads to, with the positions of its keys. -/
structure Laid (hash : CStr → UInt64) (n : ℕ) (ht : Htable) (L : List (ℕ × CStr)) : Prop where
  inv : ∃ M, Inv hash ht M
  cap : ht.cap = 2 ^ n
  three_le : 3 ≤ n
  keys : ∀ j k, (bucketAt ht.table j).key = some k ↔ (j, k) ∈ L

variable {hash : CStr → UInt64} {n : ℕ} {ht : Htable} {L : List (ℕ × CStr)} {key : CStr}

theorem Laid.probeWindow_le (h : Laid hash n ht L) : probeWindow ≤ ht.cap := by
  rw [h.cap]
  exact Nat.pow_le_pow_right Nat.two_pos h.three_le

theorem Laid.free (h : Laid hash n ht L) {j : ℕ} (hj : ∀ k, (j, k) ∉ L) :
    (bucketAt ht.table j).key = none := by
  cases hb : (bucketAt ht.table j).key with
  | none => rfl
  | some k => exact absurd ((h.keys j k).mp hb) (hj k)

theorem laid_reserve (hash : CStr → UInt64) (items : ℕ) (hn : 3 ≤ n) (hn64 : n < 64)
    (hitems : w64 (items * 4) = 2 ^ n) :
    ∃ ht, exec hash Htable.zero (.reserve items) = .ok (ht, none) ∧ Laid hash n ht [] := by
  have hgrow : growCap (2 ^ n) doublings 1 = .ok (2 ^ n) :=
    growCap_pow (a := 0) (Nat.zero_le n) hn64 (by unfold doublings; omega)
  have hres : htableReserve hash Htable.zero items =
      .ok ⟨0, 2 ^ n, List.replicate (2 ^ n) ⟨none, 0⟩⟩ := by
    show htableResizeFrom hash Htable.zero (64 + 1) (w64 (items * 4)) = _
    have hpos : ¬2 ^ n ≤ Htable.zero.cap := Nat.not_le.mpr (Nat.two_pow_pos n)
    rw [hitems, htableResizeFrom, if_neg hpos]
    show (growCap (2 ^ n) doublings 1 >>= _) = _
    rw [hgrow, ok_bind]
    rfl
  have hexec : exec hash Htable.zero (.reserve items) =
      .ok (⟨0, 2 ^ n, List.replicate (2 ^ n) ⟨none, 0⟩⟩, none) := by
    rw [exec, hres]
    rfl
  refine ⟨_, hexec, ⟨_, (exec_spec inv_zero hexec).1⟩, rfl, hn, fun j k => ?_⟩
  rw [show List.replicate (2 ^ n) (⟨none, 0⟩ : Bucket CStr ℕ) =
    List.replicate (2 ^ n) ⟨none, default⟩ from rfl, bucketAt_replicate]
  exact ⟨fun h => (nomatch h), fun h => absurd h List.not_mem_nil⟩

theorem putScan_append {T : List (Bucket CStr ℕ)} {e : Option ℕ} {rest : List ℕ} : ∀ {pre : List ℕ},
    (∀ i ∈ pre, ∃ k, (bucketAt T i).key = some k ∧ clip k ≠ clip key) →
      putScan T key (pre ++ rest) e = putScan T key rest e
  | [], _ => rfl
  | i :: pre, h => by
    obtain ⟨k, hk, hne⟩ := h i (List.mem_cons_self ..)
    rw [List.cons_append, putScan, hk]
    dsimp only
    rw [if_neg (fun hs => hne (sameKey_iff.mp hs))]
    exact putScan_append fun i hi => h i (List.mem_cons_of_mem _ hi)

theorem Laid.clip_ne (h : Laid hash n ht L) (hnew : ∀ j, (j, clip key) ∉ L) {j : ℕ} {k : CStr}
    (hk : (bucketAt ht.table j).key = some k) : clip k ≠ clip key := by
  obtain ⟨M, hi⟩ := h.inv
  intro hc
  rw [hi.clipped ⟨j, hk, rfl⟩] at hc
  exact hnew j (hc ▸ (h.keys j k).mp hk)

/-- **An insertion** puts the key into the first empty bucket of its window. -/
theorem Laid.put (h : Laid hash n ht L) (key : CStr) (value : ℕ) (hnew : ∀ j, (j, clip key) ∉ L) {j : ℕ}
    {pre post : List ℕ} (hw : window hash (2 ^ n) key = pre ++ j :: post)
    (hpre : ∀ i ∈ pre, ∃ k, (i, k) ∈ L) (hj : ∀ k, (j, k) ∉ L) :
    ∃ ht' r, exec hash ht (.put key value) = .ok (ht', r) ∧ Laid hash n ht' ((j, clip key) :: L) := by
  obtain ⟨M, hi⟩ := h.inv
  obtain ⟨ht1, hr, -, -, hsame⟩ := htableResize_window hi
  cases hsame h.probeWindow_le
  have hlt : j < ht.table.length := by
    rw [hi.length, h.cap]
    exact lt_of_mem_window (Nat.two_pow_pos n) (hw ▸ List.mem_append_right pre (List.mem_cons_self ..))
  have hscan : putScan ht.table key (window hash ht.cap key) none = .missing (some j) := by
    rw [h.cap, hw, putScan_append fun i hi => ?_, putScan, h.free hj]
    · dsimp only
      rw [if_pos rfl]
      have hspec := putScan_spec ht.table key post (some j)
      cases hs : putScan ht.table key post (some j) with
      | found i =>
        rw [hs] at hspec
        obtain ⟨k, hk, hc⟩ := hspec
        exact absurd hc (h.clip_ne hnew hk)
      | missing e => rw [putScan_some hs]
    · obtain ⟨k, hk⟩ := hpre i hi
      exact ⟨k, (h.keys i k).mpr hk, h.clip_ne hnew ((h.keys i k).mpr hk)⟩
  have hexec : exec hash ht (.put key value) =
      .ok (⟨ht.len + 1, ht.cap, ht.table.set j ⟨some (clip key), value⟩⟩, some ⟨true, 0⟩) := by
    show _ <$> htablePutFrom hash key value (64 + 1) ht = _
    rw [htablePutFrom, hr, ok_bind, hscan]
    rfl
  refine ⟨_, _, hexec, ⟨_, (exec_spec hi hexec).1⟩, h.cap, h.three_le, fun i k => ?_⟩
  rw [bucketAt_set hlt, List.mem_cons, Prod.mk.injEq]
  split_ifs with hij
  · subst hij
    rw [Option.some.injEq]
    constructor
    · rintro rfl
      exact .inl ⟨rfl, rfl⟩
    · rintro (⟨-, rfl⟩ | hmem)
      · rfl
      · exact absurd hmem (hj k)
  · rw [h.keys i k]
    exact (or_iff_right fun hc => hij hc.1).symm

theorem Laid.putHome (h : Laid hash n ht L) (value : ℕ) {j : ℕ} (hclip : clip key = key)
    (hhome : slot hash (2 ^ n) key 0 = j) (hnew : ∀ i, (i, key) ∉ L) (hj : ∀ k, (j, k) ∉ L) :
    ∃ ht' r, exec hash ht (.put key value) = .ok (ht', r) ∧ Laid hash n ht' ((j, key) :: L) := by
  have hw : window hash (2 ^ n) key = [] ++ j :: (List.range' 1 7).map (slot hash (2 ^ n) key) := by
    rw [← hhome]
    rfl
  obtain ⟨ht', r, hexec, h'⟩ := h.put key value (fun i => by rw [hclip]; exact hnew i) hw
    (fun i hi => absurd hi List.not_mem_nil) hj
  rw [hclip] at h'
  exact ⟨ht', r, hexec, h'⟩

/-- **A removal** empties the bucket. -/
theorem Laid.del (h : Laid hash n ht L) (key : CStr) {j : ℕ} (hmem : (j, clip key) ∈ L) :
    ∃ ht' r, exec hash ht (.del key) = .ok (ht', r) ∧
      Laid hash n ht' (L.filter fun item => item.1 ≠ j) := by
  obtain ⟨M, hi⟩ := h.inv
  obtain ⟨ht1, hr, -, -, hsame⟩ := htableResize_window hi
  cases hsame h.probeWindow_le
  have hkey := (h.keys j _).mpr hmem
  have hfind : findKey hash ht key = some j := by
    cases hf : findKey hash ht key with
    | none => exact absurd ⟨j, hkey, rfl⟩ (not_stored_of_findKey hi hf _)
    | some i => rw [hi.placed.unique (key_of_findKey hi hf) hkey]
  have hexec : exec hash ht (.del key) = .ok (⟨ht.len - 1, ht.cap,
      ht.table.set j ⟨none, (bucketAt ht.table j).value⟩⟩,
      some ⟨true, (bucketAt ht.table j).value⟩) := by
    show _ <$> htableDel hash ht key = _
    rw [htableDel, hr, ok_bind, hfind]
    rfl
  refine ⟨_, _, hexec, ⟨_, (exec_spec hi hexec).1⟩, h.cap, h.three_le, fun i k => ?_⟩
  rw [bucketAt_set (lt_length_of_key hkey), List.mem_filter, decide_eq_true_iff]
  split_ifs with hij
  · exact ⟨fun hc => (nomatch hc), fun hc => absurd hij hc.2⟩
  · rw [h.keys i k]
    exact (and_iff_left hij).symm

/-- Positions and keys that differ. -/
def Differ (a b : ℕ × CStr) : Prop := a.1 ≠ b.1 ∧ a.2 ≠ b.2

/-- **Keys that find their first bucket empty.** -/
theorem Laid.puts : ∀ {items : List (ℕ × CStr)} {ht : Htable} {L : List (ℕ × CStr)},
    Laid hash n ht L → (∀ item ∈ items, clip item.2 = item.2 ∧ slot hash (2 ^ n) item.2 0 = item.1) →
    (items ++ L).Pairwise Differ →
    ∃ ht' rs, run hash ht (items.map fun item => .put item.2 0) = .ok (ht', rs) ∧
      Laid hash n ht' (items.reverse ++ L)
  | [], ht, L, h, _, _ => ⟨ht, [], rfl, h⟩
  | (j, key) :: items, ht, L, h, hslot, hpair => by
    obtain ⟨hclip, hhome⟩ : clip key = key ∧ slot hash (2 ^ n) key 0 = j :=
      hslot _ (List.mem_cons_self ..)
    obtain ⟨hfirst, -⟩ := List.pairwise_cons.mp hpair
    obtain ⟨ht1, r, hexec, h1⟩ := h.putHome 0 hclip hhome
      (fun i hi => (hfirst _ (List.mem_append_right items hi)).2 rfl)
      (fun k hk => (hfirst _ (List.mem_append_right items hk)).1 rfl)
    have hpair1 : (items ++ (j, key) :: L).Pairwise Differ :=
      (List.pairwise_middle fun hab => ⟨hab.1.symm, hab.2.symm⟩).mpr hpair
    obtain ⟨ht2, rs, hrun, h2⟩ := Laid.puts h1
      (fun item hitem => hslot item (List.mem_cons_of_mem _ hitem)) hpair1
    refine ⟨ht2, r :: rs, ?_, ?_⟩
    · rw [List.map_cons, run, hexec, ok_bind]
      dsimp only
      rw [hrun]
      rfl
    · rw [List.reverse_cons, List.append_assoc]
      exact h2

/-! ### The largest capacity -/

section Stuck
variable {M : KeyMap} {S : Finset CStr} {value : ℕ}

theorem putScan_full (hi : Inv hash ht M) (hnew : clip key ∉ M)
    (hfull : ∀ j ∈ window hash ht.cap key, (bucketAt ht.table j).key ≠ none) :
    putScan ht.table key (window hash ht.cap key) none = .missing none := by
  have hspec := putScan_spec ht.table key (window hash ht.cap key) none
  cases hs : putScan ht.table key (window hash ht.cap key) none with
  | found j =>
    rw [hs] at hspec
    obtain ⟨k, hk, hc⟩ := hspec
    have hlookup := (hi.rep k _).mpr ⟨j, hk, rfl⟩
    rw [← hi.clipped ⟨j, hk, rfl⟩, hc] at hlookup
    exact absurd (Finmap.mem_of_lookup_eq_some hlookup) hnew
  | missing e =>
    rw [hs] at hspec
    cases e with
    | none => rfl
    | some j =>
      obtain ⟨hmem, hnone⟩ := (hspec.2.1 j rfl).resolve_left fun h => (nomatch h)
      exact absurd hnone (hfull j hmem)

/-- **A full window in the largest table**: the insertion calls itself for ever. -/
theorem htablePutFrom_stuck (hi : Inv hash ht M) (hcap : ht.cap = 2 ^ 63) (hnew : clip key ∉ M)
    (hfull : ∀ j ∈ window hash ht.cap key, (bucketAt ht.table j).key ≠ none) :
    ∀ fuel, htablePutFrom hash key value fuel ht = .error .diverge
  | 0 => rfl
  | fuel + 1 => by
    have hwin : probeWindow ≤ ht.cap := by
      rw [hcap]
      decide
    obtain ⟨ht1, hr, -, -, hsame⟩ := htableResize_window hi
    cases hsame hwin
    have hw : w64 (ht.cap * 2) = 0 := by
      rw [hcap]
      rfl
    have hr0 : htableResize hash ht 0 = .ok ht := by
      show htableResizeFrom hash ht (64 + 1) 0 = _
      rw [htableResizeFrom, if_pos (Nat.zero_le _)]
    rw [htablePutFrom, hr, ok_bind, putScan_full hi hnew hfull]
    dsimp only
    rw [hw, hr0, ok_bind]
    exact htablePutFrom_stuck hi hcap hnew hfull fuel

/-- **Keys that crowd the window of another one in every table**: each is in its first bucket, however
far the table has grown. -/
theorem htablePutFrom_crowded (hA : Apart hash 3 S) (hS : ∀ k ∈ S, clip k = k) (hnew : clip key ∉ S)
    (hcrowd : ∀ a, 3 ≤ a → a ≤ 63 → ∀ j ∈ window hash (2 ^ a) key, ∃ k ∈ S,
      slot hash (2 ^ a) k 0 = j) (hM : M.keys = S) : ∀ (fuel : ℕ) {a : ℕ} {ht : Htable},
      Inv hash ht M → ht.cap = 2 ^ a → 3 ≤ a → a ≤ 63 → Homes hash ht.cap S ht.table →
      htablePutFrom hash key value fuel ht = .error .diverge
  | 0, _, _, _, _, _, _, _ => rfl
  | fuel + 1, a, ht, hi, hcap, h3, h63, hhome => by
    have hnewM : clip key ∉ M := fun h => hnew (hM ▸ Finmap.mem_keys.mpr h)
    have hfull : ∀ j ∈ window hash ht.cap key, (bucketAt ht.table j).key ≠ none := by
      intro j hj
      rw [hcap] at hj
      obtain ⟨k, hk, hslot⟩ := hcrowd a h3 h63 j hj
      obtain ⟨v, hv⟩ := Finmap.mem_iff.mp (Finmap.mem_keys.mp (hM ▸ hk))
      obtain ⟨i, hkey, -⟩ := (hi.rep k v).mp hv
      have hij : i = j := by
        rw [(hhome i k hkey).2, hcap, hslot]
      rw [← hij, hkey]
      exact Option.some_ne_none k
    rcases h63.lt_or_eq with hlt | rfl
    · have hwin : probeWindow ≤ ht.cap := by
        rw [hcap]
        exact Nat.pow_le_pow_right Nat.two_pos h3
      obtain ⟨ht1, hr, -, -, hsame⟩ := htableResize_window hi
      cases hsame hwin
      have hw : w64 (ht.cap * 2) = 2 ^ (a + 1) := by
        rw [hcap]
        exact w64_eq (Nat.pow_lt_pow_right Nat.one_lt_two (show a + 1 < 64 by omega))
      obtain ⟨ht2, c, hr2, hc, h1, h2, hh2⟩ := htableResizeFrom_home hA hS (by decide) hi hM.le hcap
        doublings (a + 1) (by omega) (by omega) (by unfold doublings; omega)
      have hres : htableResize hash ht (2 ^ (a + 1)) = .ok ht2 := hr2
      rw [htablePutFrom, hr, ok_bind, putScan_full hi hnewM hfull]
      dsimp only
      rw [hw, hres, ok_bind]
      exact htablePutFrom_crowded hA hS hnew hcrowd hM fuel (htableResizeFrom_spec hi hr2).1 hc
        (by omega) (by omega) (hh2 (by omega))
    · exact htablePutFrom_stuck hi hcap hnewM hfull (fuel + 1)

end Stuck

/-! ### Keys with small hashes -/

/-- A string, from its bytes. -/
def ofBytes (l : List UInt8) : CStr :=
  ⟨l.filter (· ≠ 0), fun h => by simpa using (List.mem_filter.mp h).2⟩

/-- Keys with the hashes 0 to 8. -/
def lowKey : ℕ → CStr
  | 0 => ofBytes [103, 100, 49, 37, 1, 7, 21, 3, 7, 127, 1, 6, 62, 5]
  | 1 => ofBytes [121, 97, 31, 8, 6, 11, 13, 20, 1, 105, 6, 27, 113, 13]
  | 2 => ofBytes [115, 100, 1, 52, 6, 1, 6, 27, 12, 7, 10, 42, 5, 13]
  | 3 => ofBytes [97, 97, 6, 18, 96, 11, 54, 6, 24, 8, 9, 20, 54, 26]
  | 4 => ofBytes [118, 103, 7, 29, 8, 50, 30, 6, 12, 59, 28, 54, 24, 5]
  | 5 => ofBytes [110, 120, 9, 18, 14, 5, 15, 44, 6, 29, 11, 59, 1, 7]
  | 6 => ofBytes [104, 121, 16, 30, 30, 12, 48, 125, 2, 51, 3, 122, 5, 36]
  | 7 => ofBytes [106, 97, 15, 8, 1, 8, 61, 2, 23, 117, 25, 31, 23, 11]
  | _ => ofBytes [102, 117, 30, 13, 4, 19, 57, 63, 16, 5, 15, 6, 9, 57]

/-- A key with the hash `2 ^ 63`. -/
def highKey : CStr := ofBytes [113, 110, 1, 29, 21, 9, 112, 20, 15, 21, 120, 12, 1, 5]

theorem htableHash_lowKey : ∀ j < 9, (htableHash (lowKey j)).toNat = j := by decide

theorem htableHash_highKey : (htableHash highKey).toNat = 2 ^ 63 := by decide

theorem clip_lowKey {j : ℕ} (hj : j < 9) : clip (lowKey j) = lowKey j := by
  have hlength : ∀ j < 9, (lowKey j).val.length ≤ htableKeyMaxLen := by decide
  exact CStr.take_of_length_le (hlength j hj)

theorem clip_highKey : clip highKey = highKey := CStr.take_of_length_le (by decide)

theorem lowKey_injective {j j' : ℕ} (hj : j < 9) (hj' : j' < 9) (h : lowKey j = lowKey j') :
    j = j' := by
  rw [← htableHash_lowKey j hj, h, htableHash_lowKey j' hj']

theorem lowKey_ne_highKey {j : ℕ} (hj : j < 9) : lowKey j ≠ highKey := by
  intro h
  have hhash := htableHash_lowKey j hj
  rw [h, htableHash_highKey] at hhash
  omega

theorem slot_eq {h i : ℕ} (hclip : clip key = key) (hhash : (hash key).toNat = h)
    (hlt : h + i < 2 ^ 64) : slot hash (2 ^ n) key i = (h + i) % 2 ^ n := by
  have hi : (UInt64.ofNat i).toNat = i := UInt64.toNat_ofNat_of_lt' (by
    rw [UInt64.size]
    omega)
  unfold slot
  rw [show key.take htableKeyMaxLen = key from hclip, UInt64.toNat_add, hhash, hi,
    Nat.mod_eq_of_lt hlt]

theorem slot_lowKey {j i : ℕ} (hj : j < 9) (hi : i < 8) :
    slot htableHash (2 ^ n) (lowKey j) i = (j + i) % 2 ^ n :=
  slot_eq (clip_lowKey hj) (htableHash_lowKey j hj) (by omega)

theorem home_lowKey {j : ℕ} (hj : j < 9) (hn : j < 2 ^ n) :
    slot htableHash (2 ^ n) (lowKey j) 0 = j := by
  rw [slot_lowKey hj (by decide), Nat.add_zero, Nat.mod_eq_of_lt hn]

theorem slot_highKey {i : ℕ} (h3 : 3 ≤ n) (h63 : n ≤ 63) (hi : i < 8) :
    slot htableHash (2 ^ n) highKey i = i := by
  have hlt : i < 2 ^ n := hi.trans_le (Nat.pow_le_pow_right Nat.two_pos h3)
  rw [slot_eq clip_highKey htableHash_highKey (by omega), Nat.add_mod,
    Nat.mod_eq_zero_of_dvd (pow_dvd_pow 2 h63), Nat.zero_add, Nat.mod_mod, Nat.mod_eq_of_lt hlt]

theorem window_highKey (h3 : 3 ≤ n) (h63 : n ≤ 63) :
    window htableHash (2 ^ n) highKey = List.range 8 := by
  refine (List.map_congr_left fun i hi => ?_).trans (List.map_id _)
  exact slot_highKey h3 h63 (List.mem_range.mp hi)

/-- The positions and the keys of some of the hashes. -/
def lowItems (l : List ℕ) : List (ℕ × CStr) := l.map fun j => (j, lowKey j)

theorem mem_lowItems {l : List ℕ} {j : ℕ} {k : CStr} :
    (j, k) ∈ lowItems l ↔ j ∈ l ∧ k = lowKey j := by
  unfold lowItems
  rw [List.mem_map]
  constructor
  · rintro ⟨i, hi, heq⟩
    cases heq
    exact ⟨hi, rfl⟩
  · rintro ⟨hj, rfl⟩
    exact ⟨j, hj, rfl⟩

theorem pairwise_lowItems {l : List ℕ} (hl : l.Nodup) (hlt : ∀ j ∈ l, j < 9) :
    (lowItems l).Pairwise Differ := by
  refine List.pairwise_map.mpr (hl.imp_of_mem fun hj hj' hne => ⟨hne, fun h => hne ?_⟩)
  exact lowKey_injective (hlt _ hj) (hlt _ hj') h

/-- Keys with small hashes are put into the buckets of their hashes. -/
theorem Laid.putLow {ht : Htable} {L : List (ℕ × CStr)} (h : Laid htableHash n ht L) {l : List ℕ}
    (hlt : ∀ j ∈ l, j < 9 ∧ j < 2 ^ n) (hpair : (lowItems l ++ L).Pairwise Differ) :
    ∃ ht' rs, run htableHash ht (l.map fun j => .put (lowKey j) 0) = .ok (ht', rs) ∧
      Laid htableHash n ht' ((lowItems l).reverse ++ L) := by
  have hmap : (lowItems l).map (fun item => Op.put item.2 0) = l.map fun j => .put (lowKey j) 0 :=
    List.map_map
  rw [← hmap]
  refine h.puts ?_ hpair
  rintro ⟨j, k⟩ hitem
  obtain ⟨hj, rfl⟩ := mem_lowItems.mp hitem
  obtain ⟨h9, hn⟩ := hlt j hj
  exact ⟨clip_lowKey h9, home_lowKey h9 hn⟩

theorem Laid.mem_keysOf (h : Laid hash n ht L) {k : CStr} : k ∈ keysOf ht ↔ ∃ j, (j, k) ∈ L := by
  unfold keysOf
  rw [List.mem_toFinset, List.mem_map]
  constructor
  · rintro ⟨⟨k, v⟩, hitem, rfl⟩
    obtain ⟨j, hj, -⟩ := mem_htableItems.mp hitem
    exact ⟨j, (h.keys j k).mp hj⟩
  · rintro ⟨j, hj⟩
    exact ⟨(k, _), mem_htableItems.mpr ⟨j, (h.keys j k).mpr hj, rfl⟩, rfl⟩

/-! ### Insertions that return -/

/-- The keys with the hashes 0 to 7, in a table of 8 buckets. -/
def crowdedOps : List Op := .reserve 2 :: (List.range 8).map fun j => .put (lowKey j) 0

theorem run_cons {ht1 ht2 : Htable} {op : Op} {ops : List Op} {r : Option HtableRet}
    {rs : List (Option HtableRet)} (hexec : exec hash ht op = .ok (ht1, r))
    (hrun : run hash ht1 ops = .ok (ht2, rs)) : run hash ht (op :: ops) = .ok (ht2, r :: rs) := by
  rw [run, hexec, ok_bind]
  dsimp only
  rw [hrun]
  rfl

theorem laid_crowded : ∃ ht rs, run htableHash Htable.zero crowdedOps = .ok (ht, rs) ∧
    Laid htableHash 3 ht (lowItems (List.range 8)).reverse := by
  have h8 : ∀ j ∈ List.range 8, j < 9 ∧ j < 2 ^ 3 := by decide
  have hpair := pairwise_lowItems List.nodup_range fun j hj => (h8 j hj).1
  obtain ⟨ht0, hreserve, h0⟩ := laid_reserve (n := 3) htableHash 2 le_rfl (by decide) (by decide)
  obtain ⟨ht, rs, hrun, hlaid⟩ := h0.putLow h8 ((List.append_nil _).symm ▸ hpair)
  rw [List.append_nil] at hlaid
  exact ⟨ht, none :: rs, run_cons hreserve hrun, hlaid⟩

/-- **Growth ends with a bounded capacity.** -/
theorem htable_put_bounded (hash : CStr → UInt64) {ht : Htable} {key : CStr} {k : ℕ} (value : ℕ)
    (hr : Reachable hash ht) (hcap : ht.cap < 2 ^ 63) (hk : 3 ≤ k ∧ k ≤ 63)
    (hA : Apart hash k (insert (clip key) (keysOf ht))) :
    ∃ ht' r, htablePut hash ht key value = .ok (ht', r) ∧
      ht'.cap ≤ max (2 * max ht.cap 8) (2 ^ k) := by
  obtain ⟨M, hi⟩ := hr.inv
  rw [keysOf_eq hi] at hA
  exact htablePut_returns hi (Nat.lt_succ_of_le hk.2) hcap hA

/-- A ninth key makes the table grow. -/
theorem htable_put_bounded_ninth : ∃ ht rs ht' r,
    run htableHash Htable.zero crowdedOps = .ok (ht, rs) ∧ ht.cap = 8 ∧
      htablePut htableHash ht (lowKey 8) 1 = .ok (ht', r) ∧ ht'.cap ≤ 16 := by
  obtain ⟨ht, rs, hrun, hlaid⟩ := laid_crowded
  have hcap : ht.cap = 8 := hlaid.cap
  have hkeys : ∀ k ∈ insert (clip (lowKey 8)) (keysOf ht), ∃ j < 9, k = lowKey j := by
    intro k hk
    rcases Finset.mem_insert.mp hk with rfl | hk
    · exact ⟨8, by decide, clip_lowKey (by decide)⟩
    · obtain ⟨j, hitem⟩ := hlaid.mem_keysOf.mp hk
      obtain ⟨hj, rfl⟩ := mem_lowItems.mp (List.mem_reverse.mp hitem)
      exact ⟨j, (List.mem_range.mp hj).trans (by decide), rfl⟩
  obtain ⟨ht', r, hput, hle⟩ := htable_put_bounded htableHash (k := 4) 1 ⟨_, _, hrun⟩
    (by rw [hcap]; decide) (by decide) fun k hk k' hk' heq => by
      obtain ⟨j, hj, rfl⟩ := hkeys k hk
      obtain ⟨j', hj', rfl⟩ := hkeys k' hk'
      rw [htableHash_lowKey j hj, htableHash_lowKey j' hj', Nat.mod_eq_of_lt (by omega),
        Nat.mod_eq_of_lt (by omega)] at heq
      rw [heq]
  rw [hcap] at hle
  exact ⟨ht, rs, ht', r, hrun, hcap, hput, hle⟩

/-! ### Insertions that do not return -/

/-- In the largest table, a key that was put behind another one which is gone, and the keys behind
it. -/
def displacedOps : List Op :=
  .reserve (2 ^ 61) :: .put (lowKey 0) 0 :: .put highKey 0 :: .del (lowKey 0) ::
    (List.range' 2 7).map fun j => .put (lowKey j) 0

/-- **The window of the key with the hash `2 ^ 63` is full in every table.** -/
theorem crowded : ∃ ht rs, run htableHash Htable.zero crowdedOps = .ok (ht, rs) ∧
    (∀ k, k ∈ keysOf ht ↔ ∃ j < 8, k = lowKey j) ∧
    ∀ value fuel, htablePutFrom htableHash highKey value fuel ht = .error .diverge := by
  obtain ⟨ht, rs, hrun, hlaid⟩ := laid_crowded
  have hmem : ∀ {j k}, (j, k) ∈ (lowItems (List.range 8)).reverse ↔ j < 8 ∧ k = lowKey j := by
    intro j k
    rw [List.mem_reverse, mem_lowItems, List.mem_range]
  have hkeys : ∀ k, k ∈ keysOf ht ↔ ∃ j < 8, k = lowKey j := fun k =>
    hlaid.mem_keysOf.trans (exists_congr fun j => hmem)
  have hhome : ∀ {a j}, 3 ≤ a → j < 8 → slot htableHash (2 ^ a) (lowKey j) 0 = j := fun h3 hj =>
    home_lowKey (by omega) (hj.trans_le (Nat.pow_le_pow_right Nat.two_pos h3))
  refine ⟨ht, rs, hrun, hkeys, fun value fuel => ?_⟩
  obtain ⟨M, hi⟩ := hlaid.inv
  refine htablePutFrom_crowded (S := keysOf ht) ?_ ?_ ?_ ?_ (keysOf_eq hi).symm fuel hi hlaid.cap
    le_rfl (by decide) ?_
  · intro k hk k' hk' heq
    obtain ⟨j, hj, rfl⟩ := (hkeys k).mp hk
    obtain ⟨j', hj', rfl⟩ := (hkeys k').mp hk'
    rw [htableHash_lowKey j (by omega), htableHash_lowKey j' (by omega)] at heq
    rw [show j = j' by omega]
  · intro k hk
    obtain ⟨j, hj, rfl⟩ := (hkeys k).mp hk
    exact clip_lowKey (by omega)
  · rw [clip_highKey, hkeys]
    rintro ⟨j, hj, heq⟩
    exact lowKey_ne_highKey (by omega) heq.symm
  · intro a h3 h63 j hj
    rw [window_highKey h3 h63] at hj
    have hj8 := List.mem_range.mp hj
    exact ⟨lowKey j, (hkeys _).mpr ⟨j, hj8, rfl⟩, hhome h3 hj8⟩
  · intro j k hk
    obtain ⟨hj, rfl⟩ := hmem.mp ((hlaid.keys j k).mp hk)
    rw [hlaid.cap, hhome le_rfl hj]
    exact ⟨(hkeys _).mpr ⟨j, hj, rfl⟩, rfl⟩

/-- The positions after the removal. -/
def displacedItems : List (ℕ × CStr) := (lowItems (List.range' 2 7)).reverse ++ [(1, highKey)]

theorem mem_displacedItems {j : ℕ} {k : CStr} : (j, k) ∈ displacedItems ↔
    (2 ≤ j ∧ j < 9 ∧ k = lowKey j) ∨ (j = 1 ∧ k = highKey) := by
  rw [displacedItems, List.mem_append, List.mem_reverse, mem_lowItems, List.mem_range'_1,
    List.mem_singleton, Prod.mk.injEq, and_assoc]

/-- The largest table, where the key with the hash `2 ^ 63` has stayed behind its first bucket. -/
theorem laid_displaced : ∃ ht rs, run htableHash Htable.zero displacedOps = .ok (ht, rs) ∧
    Laid htableHash 63 ht displacedItems := by
  have h9 : ∀ j ∈ List.range' 2 7, j < 9 ∧ j < 2 ^ 63 := by decide
  have hclip0 : clip (lowKey 0) = lowKey 0 := clip_lowKey (by decide)
  have hne : lowKey 0 ≠ highKey := lowKey_ne_highKey (by decide)
  obtain ⟨ht0, hreserve, h0⟩ := laid_reserve (n := 63) htableHash (2 ^ 61) (by decide) (by decide)
    (by decide)
  -- the first key in its bucket, the other one behind it
  obtain ⟨ht1, r1, hexec1, h1⟩ := h0.putHome 0 hclip0 (home_lowKey (by decide) (by decide))
    (fun i => List.not_mem_nil) fun k => List.not_mem_nil
  have hw1 : window htableHash (2 ^ 63) highKey = [0] ++ 1 :: List.range' 2 6 :=
    window_highKey (by decide) le_rfl
  obtain ⟨ht2, r2, hexec2, h2⟩ := h1.put highKey 0
    (by simp [clip_highKey, hne.symm]) hw1 (by simp) (by simp)
  rw [clip_highKey] at h2
  -- the first key goes away, the keys behind them come
  obtain ⟨ht3, r3, hexec3, h3⟩ := h2.del (lowKey 0) (j := 0) (by simp [hclip0])
  have hL : [(1, highKey), (0, lowKey 0)].filter (fun item : ℕ × CStr => item.1 ≠ 0) =
      [(1, highKey)] := by simp
  rw [hL] at h3
  have hpair : (lowItems (List.range' 2 7) ++ [(1, highKey)]).Pairwise Differ := by
    refine List.pairwise_append.mpr ⟨pairwise_lowItems List.nodup_range' fun j hj => (h9 j hj).1,
      List.pairwise_singleton .., ?_⟩
    rintro ⟨j, k⟩ hitem ⟨j', k'⟩ hlast
    obtain ⟨hj, rfl⟩ := mem_lowItems.mp hitem
    cases List.mem_singleton.mp hlast
    have hj2 := (List.mem_range'_1.mp hj).1
    exact ⟨show j ≠ 1 by omega, lowKey_ne_highKey (h9 j hj).1⟩
  obtain ⟨ht, rs, hrun, hlaid⟩ := h3.putLow h9 hpair
  exact ⟨ht, _, run_cons hreserve (run_cons hexec1 (run_cons hexec2 (run_cons hexec3 hrun))), hlaid⟩

/-- **The window of a key is full in the largest table**, and all hashes differ modulo 16. -/
theorem displaced : ∃ ht rs, run htableHash Htable.zero displacedOps = .ok (ht, rs) ∧
    (∀ k, k ∈ keysOf ht ↔ k = highKey ∨ ∃ j, 2 ≤ j ∧ j < 9 ∧ k = lowKey j) ∧
    ∀ value fuel, htablePutFrom htableHash (lowKey 1) value fuel ht = .error .diverge := by
  obtain ⟨ht, rs, hrun, hlaid⟩ := laid_displaced
  have hkeys : ∀ k, k ∈ keysOf ht ↔ k = highKey ∨ ∃ j, 2 ≤ j ∧ j < 9 ∧ k = lowKey j := by
    intro k
    rw [hlaid.mem_keysOf]
    constructor
    · rintro ⟨j, hj⟩
      exact (mem_displacedItems.mp hj).symm.imp And.right fun hlow => ⟨j, hlow⟩
    · rintro (rfl | ⟨j, hlow⟩)
      · exact ⟨1, mem_displacedItems.mpr (.inr ⟨rfl, rfl⟩)⟩
      · exact ⟨j, mem_displacedItems.mpr (.inl hlow)⟩
  refine ⟨ht, rs, hrun, hkeys, fun value fuel => ?_⟩
  obtain ⟨M, hi⟩ := hlaid.inv
  refine htablePutFrom_stuck hi hlaid.cap (fun hM => ?_) (fun j hj => ?_) fuel
  · rw [clip_lowKey (by decide), ← Finmap.mem_keys, ← keysOf_eq hi, hkeys] at hM
    rcases hM with heq | ⟨j, h2, hj, heq⟩
    · exact lowKey_ne_highKey (by decide) heq
    · have h1j := lowKey_injective (by decide) hj heq
      omega
  · rw [hlaid.cap] at hj
    obtain ⟨i, hi8, rfl⟩ := List.mem_map.mp hj
    have hlt : i < 8 := List.mem_range.mp hi8
    rw [slot_lowKey (by decide) hlt, Nat.mod_eq_of_lt (by omega)]
    rcases Nat.eq_zero_or_pos i with rfl | hpos
    · rw [(hlaid.keys 1 highKey).mpr (mem_displacedItems.mpr (.inr ⟨rfl, rfl⟩))]
      exact Option.some_ne_none _
    · have hlow : 2 ≤ 1 + i ∧ 1 + i < 9 ∧ lowKey (1 + i) = lowKey (1 + i) :=
        ⟨by omega, by omega, rfl⟩
      rw [(hlaid.keys (1 + i) _).mpr (mem_displacedItems.mpr (.inl hlow))]
      exact Option.some_ne_none _

theorem apart_keys {m : ℕ} {S : Finset CStr} (hm : 4 ≤ m)
    (hS : ∀ k ∈ S, k = highKey ∨ ∃ j < 9, k = lowKey j ∧ 2 ^ 63 % 2 ^ m ≠ j) :
    Apart htableHash m S := by
  have hmod : ∀ j < 9, (htableHash (lowKey j)).toNat % 2 ^ m = j := fun j hj => by
    have hlt : j < 2 ^ m := lt_of_lt_of_le (by omega : j < 2 ^ 4) (Nat.pow_le_pow_right Nat.two_pos hm)
    rw [htableHash_lowKey j hj, Nat.mod_eq_of_lt hlt]
  intro k hk k' hk' heq
  rcases hS k hk with rfl | ⟨j, hj, rfl, hne⟩
  · rcases hS k' hk' with rfl | ⟨j', hj', rfl, hne'⟩
    · rfl
    · rw [htableHash_highKey, hmod j' hj'] at heq
      exact absurd heq hne'
  · rcases hS k' hk' with rfl | ⟨j', hj', rfl, -⟩
    · rw [htableHash_highKey, hmod j hj] at heq
      exact absurd heq.symm hne
    · rw [hmod j hj, hmod j' hj'] at heq
      rw [heq]

/-- **Growth does not always end**: not for keys with different hashes, whose remainders are different
modulo `2 ^ 64` only, and not in the largest table, where the remainders modulo 16 are different. -/
theorem htable_put_unbounded :
    (∃ ht rs, run htableHash Htable.zero crowdedOps = .ok (ht, rs) ∧
      Apart htableHash 64 (insert (clip highKey) (keysOf ht)) ∧
      ∀ value fuel, htablePutFrom htableHash highKey value fuel ht = .error .diverge) ∧
    ∃ ht rs, run htableHash Htable.zero displacedOps = .ok (ht, rs) ∧
      Apart htableHash 4 (insert (clip (lowKey 1)) (keysOf ht)) ∧
      ∀ value fuel, htablePutFrom htableHash (lowKey 1) value fuel ht = .error .diverge := by
  obtain ⟨ht, rs, hrun, hkeys, hput⟩ := crowded
  obtain ⟨ht', rs', hrun', hkeys', hput'⟩ := displaced
  refine ⟨⟨ht, rs, hrun, apart_keys (by decide) fun k hk => ?_, hput⟩,
    ht', rs', hrun', apart_keys le_rfl fun k hk => ?_, hput'⟩
  · rw [clip_highKey, Finset.mem_insert, hkeys] at hk
    exact hk.imp_right fun ⟨j, hj, heq⟩ => ⟨j, by omega, heq, by omega⟩
  · rw [clip_lowKey (by decide), Finset.mem_insert, hkeys'] at hk
    rcases hk with rfl | rfl | ⟨j, h2, hj, heq⟩
    · exact .inr ⟨1, by omega, rfl, by omega⟩
    · exact .inl rfl
    · exact .inr ⟨j, hj, heq, by omega⟩

end Optics.Utils.HtableLimits
