import Optics.Utils.Htables
import Mathlib.Algebra.Order.Group.Nat
import Mathlib.Tactic.Ring

/-! # The hash table is a finite map

The invariant of a table, `Inv`: its capacity is a power of two, every key lies in its window and at
one position only, and the entries are those of a finite map over the keys cut at 1024 bytes, as many
as `len` says. Resizing keeps it with the map unchanged, however often it starts over
(`htableResize_spec`); each operation does to the map what its name says. -/

namespace Optics.Utils.HtableMap

open Optics.Base Optics.Lib.Probing Optics.Utils.Htables

/-- The map a table stands for. -/
abbrev KeyMap := Finmap fun _ : CStr => ℕ

/-- A key as the table sees it. -/
abbrev clip (key : CStr) : CStr := key.take htableKeyMaxLen

theorem clip_clip (key : CStr) : clip (clip key) = clip key := by
  unfold clip
  rw [CStr.take_take, Nat.min_self]

variable {hash : CStr → UInt64}

/-! ### Windows -/

theorem window_clip (cap : ℕ) (key : CStr) : window hash cap (clip key) = window hash cap key := by
  unfold window slot
  simp only [show (clip key).take htableKeyMaxLen = key.take htableKeyMaxLen from clip_clip key]

theorem slot_lt {cap : ℕ} (h : 0 < cap) (key : CStr) (i : ℕ) : slot hash cap key i < cap :=
  Nat.mod_lt _ h

theorem lt_of_mem_window {cap j : ℕ} {key : CStr} (h : 0 < cap) (hj : j ∈ window hash cap key) :
    j < cap := by
  obtain ⟨i, -, rfl⟩ := List.mem_map.mp hj
  exact slot_lt h key i

/-! ### The invariant -/

/-- A table that stands for the map `M`. -/
structure Inv (hash : CStr → UInt64) (ht : Htable) (M : KeyMap) : Prop where
  pow2 : ht.cap = 0 ∨ ∃ n, ht.cap = 2 ^ n
  length : ht.table.length = ht.cap
  placed : Placed (window hash ht.cap) ht.table
  /-- the copies of the keys are cut -/
  clipped : ∀ {k v}, Stored ht.table k v → clip k = k
  rep : Represents ht.table M
  len : ht.len = M.keys.card
  room : ht.len ≠ 0 → probeWindow ≤ ht.cap

theorem inv_zero : Inv hash Htable.zero ∅ where
  pow2 := Or.inl rfl
  length := rfl
  placed := placed_replicate _ 0
  clipped h := absurd h (not_stored_replicate (n := 0))
  rep k v := by
    rw [Finmap.lookup_empty]
    exact ⟨fun h => (nomatch h), fun h => absurd h (not_stored_replicate (n := 0))⟩
  len := by rw [Finmap.keys_empty]; rfl
  room h := absurd rfl h

/-! ### Growing a table -/

/-- A power of two, or zero after the word overflowed. -/
def Pow2 (n : ℕ) : Prop := n = 0 ∨ ∃ k, n = 2 ^ k

theorem pow2_double {n : ℕ} (h : Pow2 n) : Pow2 (w64 (n * 2)) := by
  rcases h with rfl | ⟨k, rfl⟩
  · exact Or.inl rfl
  · unfold w64
    rw [← pow_succ]
    rcases Nat.lt_or_ge (k + 1) 64 with hk | hk
    · exact Or.inr ⟨k + 1, Nat.mod_eq_of_lt (Nat.pow_lt_pow_right Nat.one_lt_two hk)⟩
    · exact Or.inl (Nat.mod_eq_zero_of_dvd (pow_dvd_pow 2 hk))

theorem growCap_spec {cap : ℕ} : ∀ {fuel n m : ℕ}, growCap cap fuel n = .ok m → Pow2 n →
    cap ≤ m ∧ Pow2 m
  | 0, _, _, h, _ => nomatch h
  | fuel + 1, n, m, h, hn => by
    unfold growCap at h
    split_ifs at h with hlt
    · exact growCap_spec h (pow2_double hn)
    · cases h
      exact ⟨by omega, hn⟩

theorem growCap_pow {a b : ℕ} (hab : a ≤ b) (hb : b < 64) : ∀ {fuel : ℕ}, b - a < fuel →
    growCap (2 ^ b) fuel (2 ^ a) = .ok (2 ^ b)
  | fuel + 1, hf => by
    unfold growCap
    rcases hab.eq_or_lt with rfl | hlt
    · rw [if_neg (lt_irrefl _)]
    · have hw : w64 (2 ^ a * 2) = 2 ^ (a + 1) :=
        w64_eq (Nat.pow_lt_pow_right Nat.one_lt_two (show a + 1 < 64 by omega))
      rw [if_pos (Nat.pow_lt_pow_right Nat.one_lt_two hlt), hw]
      exact growCap_pow hlt hb (by omega)

/-- **One key into its window.** -/
theorem tablePut_spec {T T' : List (Bucket CStr ℕ)} {cap : ℕ} {k : CStr} {v : ℕ}
    (hcap : 0 < cap) (hlen : T.length = cap) (hp : Placed (window hash cap) T)
    (hk : ∀ v, ¬ Stored T k v) (h : tablePut hash T cap k v = some T') :
    T'.length = cap ∧ Placed (window hash cap) T' ∧
      ∀ k' v', Stored T' k' v' ↔ (k' = k ∧ v' = v) ∨ Stored T k' v' := by
  unfold tablePut at h
  split at h
  · rename_i j hj
    cases h
    have hw := List.mem_of_find?_eq_some hj
    have he := List.find?_some hj
    refine ⟨by rw [List.length_set]; exact hlen, hp.put hw ?_ (Option.isNone_iff_eq_none.mp he) hk v⟩
    rw [hlen]
    exact lt_of_mem_window hcap hw
  · cases h

/-- **The loop over the old buckets.** What it leaves is what was there and what it read. -/
theorem rehash_spec {newCap : ℕ} (hcap : 0 < newCap) : ∀ {bs T T' : List (Bucket CStr ℕ)},
    rehash hash newCap bs T = some T' → T.length = newCap → Placed (window hash newCap) T →
    bs.Pairwise (fun b b' => ∀ k, b.key = some k → b'.key ≠ some k) →
    (∀ k v, ⟨some k, v⟩ ∈ bs → ∀ v', ¬ Stored T k v') →
    T'.length = newCap ∧ Placed (window hash newCap) T' ∧
      ∀ k v, Stored T' k v ↔ ⟨some k, v⟩ ∈ bs ∨ Stored T k v
  | [], T, T', h, hlen, hp, _, _ => by
    cases h
    exact ⟨hlen, hp, fun k v => by simp⟩
  | ⟨none, v0⟩ :: bs, T, T', h, hlen, hp, hpw, hnew => by
    have h' : rehash hash newCap bs T = some T' := h
    have ih := rehash_spec hcap h' hlen hp (List.pairwise_cons.mp hpw).2
      fun k v hm => hnew k v (List.mem_cons_of_mem _ hm)
    refine ⟨ih.1, ih.2.1, fun k v => ?_⟩
    rw [ih.2.2, List.mem_cons]
    simp
  | ⟨some k0, v0⟩ :: bs, T, T', h, hlen, hp, hpw, hnew => by
    unfold rehash at h
    split at h
    · cases h
    · rename_i T1 h1
      have hpw' := List.pairwise_cons.mp hpw
      obtain ⟨hlen1, hp1, hs1⟩ := tablePut_spec hcap hlen hp (hnew k0 v0 (List.mem_cons_self ..)) h1
      have hnew1 : ∀ k v, ⟨some k, v⟩ ∈ bs → ∀ v', ¬ Stored T1 k v' := by
        intro k v hm v' hs
        rcases (hs1 k v').mp hs with ⟨rfl, rfl⟩ | hs
        · exact hpw'.1 _ hm _ rfl rfl
        · exact hnew k v (List.mem_cons_of_mem _ hm) v' hs
      have ih := rehash_spec hcap h hlen1 hp1 hpw'.2 hnew1
      refine ⟨ih.1, ih.2.1, fun k v => ?_⟩
      rw [ih.2.2, hs1, List.mem_cons, Bucket.mk.injEq, Option.some.injEq]
      tauto

/-- **Resizing keeps the map**, also where it starts over. -/
theorem htableResizeFrom_spec {ht : Htable} {M : KeyMap} (hi : Inv hash ht M) :
    ∀ {fuel cap : ℕ} {ht' : Htable}, htableResizeFrom hash ht fuel cap = .ok ht' →
      Inv hash ht' M ∧ ht.cap ≤ ht'.cap
  | 0, _, _, h => nomatch h
  | fuel + 1, cap, ht', h => by
    unfold htableResizeFrom at h
    by_cases hle : cap ≤ ht.cap
    · rw [if_pos hle] at h
      cases h
      exact ⟨hi, le_rfl⟩
    · rw [if_neg hle] at h
      obtain ⟨newCap, hgrow, h⟩ := bind_eq_ok.mp h
      have hstart : Pow2 (if ht.cap = 0 then 1 else ht.cap) := by
        split_ifs
        · exact Or.inr ⟨0, rfl⟩
        · exact hi.pow2
      obtain ⟨hge, hpow⟩ := growCap_spec hgrow hstart
      split at h
      · rename_i T hT
        cases h
        obtain ⟨hlen, hp, hs⟩ := rehash_spec (by omega) hT (List.length_replicate ..)
          (placed_replicate _ _) hi.placed.pairwise fun _ _ _ _ => not_stored_replicate
        have hst : ∀ k v, Stored T k v ↔ Stored ht.table k v := by
          intro k v
          rw [hs, ← stored_iff_mem]
          exact or_iff_left not_stored_replicate
        have hgrown : ht.cap ≤ newCap := by omega
        exact ⟨⟨hpow, hlen, hp, fun h => hi.clipped ((hst _ _).mp h),
          fun k v => (hi.rep k v).trans (hst k v).symm, hi.len,
          fun h0 => (hi.room h0).trans hgrown⟩, hgrown⟩
      · exact htableResizeFrom_spec hi h

theorem rehash_of_empty {newCap : ℕ} : ∀ (bs T : List (Bucket CStr ℕ)),
    (∀ b ∈ bs, b.key = none) → rehash hash newCap bs T = some T
  | [], _, _ => rfl
  | ⟨none, _⟩ :: bs, T, h =>
    rehash_of_empty bs T fun b hb => h b (List.mem_cons_of_mem _ hb)
  | ⟨some _, _⟩ :: _, _, h => nomatch h _ (List.mem_cons_self ..)

/-- **Every operation first makes room for a window**, which no key can prevent: a smaller table is
empty. -/
theorem htableResize_window {ht : Htable} {M : KeyMap} (hi : Inv hash ht M) :
    ∃ ht', htableResize hash ht probeWindow = .ok ht' ∧ Inv hash ht' M ∧
      ht'.cap = max ht.cap probeWindow ∧ (probeWindow ≤ ht.cap → ht' = ht) := by
  by_cases hle : probeWindow ≤ ht.cap
  · exact ⟨ht, if_pos hle, hi, (max_eq_left hle).symm, fun _ => rfl⟩
  have hlt : ht.cap < 2 ^ 3 := Nat.lt_of_not_le hle
  have hnone : ∀ b ∈ ht.table, b.key = none := by
    rintro ⟨_ | k, v⟩ hb
    · rfl
    · have hl := (hi.rep k v).mpr (stored_iff_mem.mpr hb)
      have hmem := Finmap.mem_keys.mpr (Finmap.mem_of_lookup_eq_some hl)
      have hroom := hi.room (by rw [hi.len]; exact Finset.card_ne_zero_of_mem hmem)
      exact absurd hroom hle
  have hgrow : growCap probeWindow doublings (if ht.cap = 0 then 1 else ht.cap) = .ok (2 ^ 3) := by
    rcases hi.pow2 with h0 | ⟨n, hn⟩
    · rw [if_pos h0]
      exact growCap_pow (Nat.zero_le 3) (by decide) (by decide)
    · have hn3 : n < 3 := (Nat.pow_lt_pow_iff_right Nat.one_lt_two).mp (hn ▸ hlt)
      rw [if_neg (by rw [hn]; exact (Nat.two_pow_pos n).ne'), hn]
      exact growCap_pow hn3.le (by decide) (by unfold doublings; omega)
  refine ⟨⟨ht.len, 2 ^ 3, List.replicate (2 ^ 3) ⟨none, 0⟩⟩, ?_, ?_,
    (max_eq_right (Nat.le_of_not_le hle)).symm, fun h => absurd h hle⟩
  · show htableResizeFrom hash ht (64 + 1) probeWindow = _
    unfold htableResizeFrom
    rw [if_neg hle, hgrow, ok_bind, rehash_of_empty _ _ hnone]
  · have hns : ∀ {k v}, ¬ Stored ht.table k v := by
      intro k v hs
      exact nomatch hnone _ (stored_iff_mem.mp hs)
    exact ⟨Or.inr ⟨3, rfl⟩, List.length_replicate .., placed_replicate _ _,
      fun h => absurd h not_stored_replicate,
      fun k v => (hi.rep k v).trans ⟨fun h => absurd h hns, fun h => absurd h not_stored_replicate⟩,
      hi.len, fun _ => le_rfl⟩

/-! ### Searching a window -/

theorem sameKey_iff {a b : CStr} : sameKey a b = true ↔ clip a = clip b := decide_eq_true_iff

/-- **A key that is found** is there. -/
theorem key_of_findKey {ht : Htable} {M : KeyMap} (hi : Inv hash ht M) {key : CStr} {j : ℕ}
    (h : findKey hash ht key = some j) : (bucketAt ht.table j).key = some (clip key) := by
  have hj := List.find?_some h
  rcases hb : (bucketAt ht.table j).key with _ | k
  · rw [hb] at hj; cases hj
  · rw [hb] at hj
    have hk : clip k = clip key := sameKey_iff.mp hj
    rw [← hi.clipped ⟨j, hb, rfl⟩, hk]

/-- **A key that is not found** is not there, empty buckets or not. -/
theorem not_stored_of_findKey {ht : Htable} {M : KeyMap} (hi : Inv hash ht M) {key : CStr}
    (h : findKey hash ht key = none) (v : ℕ) : ¬ Stored ht.table (clip key) v := by
  rintro ⟨j, hj, -⟩
  have hw := hi.placed.window hj
  rw [window_clip] at hw
  refine List.find?_eq_none.mp h j hw ?_
  rw [hj]
  exact sameKey_iff.mpr (clip_clip key)

/-- What the loop of `htable_put` found. -/
theorem putScan_spec (T : List (Bucket CStr ℕ)) (key : CStr) : ∀ (js : List ℕ) (e : Option ℕ),
    match putScan T key js e with
    | .found j => ∃ k, (bucketAt T j).key = some k ∧ clip k = clip key
    | .missing e' => (∀ j ∈ js, ∀ k, (bucketAt T j).key = some k → clip k ≠ clip key) ∧
      (∀ j, e' = some j → e = some j ∨ (j ∈ js ∧ (bucketAt T j).key = none)) ∧
      (e' = none → e = none ∧ ∀ j ∈ js, (bucketAt T j).key ≠ none)
  | [], e => by
    simp only [putScan]
    exact ⟨fun _ h => absurd h List.not_mem_nil, fun _ h => Or.inl h,
      fun h => ⟨h, fun _ h => absurd h List.not_mem_nil⟩⟩
  | j :: js, e => by
    unfold putScan
    rcases hb : (bucketAt T j).key with _ | k
    · have ih := putScan_spec T key js (if e = none then some j else e)
      simp only
      split at ih
      · exact ih
      · obtain ⟨h1, h2, h3⟩ := ih
        refine ⟨?_, fun i hi => ?_, fun he => ?_⟩
        · rintro i hi k hk
          rcases List.mem_cons.mp hi with rfl | hi
          · rw [hb] at hk; cases hk
          · exact h1 i hi k hk
        · rcases h2 i hi with h | ⟨hm, hn⟩
          · split_ifs at h with he
            · cases h
              exact Or.inr ⟨List.mem_cons_self .., hb⟩
            · exact Or.inl h
          · exact Or.inr ⟨List.mem_cons_of_mem _ hm, hn⟩
        · have h := (h3 he).1
          split_ifs at h with he0
          exact absurd h he0
    · simp only
      split_ifs with hs
      · exact ⟨k, hb, sameKey_iff.mp hs⟩
      · have ih := putScan_spec T key js e
        split at ih
        · exact ih
        · obtain ⟨h1, h2, h3⟩ := ih
          refine ⟨?_, fun i hi => ?_, fun he => ⟨(h3 he).1, ?_⟩⟩
          · rintro i hi k' hk
            rcases List.mem_cons.mp hi with rfl | hi
            · rw [hb] at hk
              cases hk
              exact fun h => hs (sameKey_iff.mpr h)
            · exact h1 i hi k' hk
          · exact (h2 i hi).imp_right fun ⟨hm, hn⟩ => ⟨List.mem_cons_of_mem _ hm, hn⟩
          · rintro i hi
            rcases List.mem_cons.mp hi with rfl | hi
            · rw [hb]; exact Option.some_ne_none k
            · exact (h3 he).2 i hi

/-! ### The operations on maps -/

/-- What a map answers for a key. -/
def ofLookup : Option ℕ → HtableRet
  | some v => ⟨true, v⟩
  | none => ⟨false, 0⟩

/-- Insertion of a key that is not there; otherwise its value is returned. -/
def mapPut (M : KeyMap) (key : CStr) (value : ℕ) : KeyMap × HtableRet :=
  match M.lookup (clip key) with
  | some old => (M, ⟨false, old⟩)
  | none => (M.insert (clip key) value, ⟨true, 0⟩)

/-- Exchange of the value of a key. -/
def mapXchg (M : KeyMap) (key : CStr) (value : ℕ) : KeyMap × HtableRet :=
  match M.lookup (clip key) with
  | some old => (M.insert (clip key) value, ⟨true, old⟩)
  | none => (M, ⟨false, 0⟩)

/-- Removal of a key. -/
def mapDel (M : KeyMap) (key : CStr) : KeyMap × HtableRet :=
  match M.lookup (clip key) with
  | some old => (M.erase (clip key), ⟨true, old⟩)
  | none => (M, ⟨false, 0⟩)

theorem keys_insert_of_notMem {M : KeyMap} {k : CStr} {v : ℕ} (h : k ∉ M) :
    (M.insert k v).keys.card = M.keys.card + 1 := by
  have hk : (M.insert k v).keys = insert k M.keys := by
    ext k'
    rw [Finmap.mem_keys, Finmap.mem_insert, Finset.mem_insert, Finmap.mem_keys]
  rw [hk, Finset.card_insert_of_notMem (fun hm => h (Finmap.mem_keys.mp hm))]

theorem keys_insert_of_mem {M : KeyMap} {k : CStr} {v : ℕ} (h : k ∈ M) :
    (M.insert k v).keys = M.keys := by
  ext k'
  rw [Finmap.mem_keys, Finmap.mem_insert, Finmap.mem_keys]
  exact ⟨fun hk' => hk'.elim (fun he => he ▸ h) id, Or.inr⟩

section Specs
variable {ht ht' : Htable} {M : KeyMap} {key : CStr} {value : ℕ} {r : HtableRet}

theorem lookup_of_findKey (hi : Inv hash ht M) {j : ℕ} (h : findKey hash ht key = some j) :
    M.lookup (clip key) = some (bucketAt ht.table j).value :=
  (hi.rep _ _).mpr ⟨j, key_of_findKey hi h, rfl⟩

theorem lookup_of_findKey_none (hi : Inv hash ht M) (h : findKey hash ht key = none) :
    M.lookup (clip key) = none := by
  rw [Finmap.lookup_eq_none, hi.rep.notMem_iff]
  exact not_stored_of_findKey hi h

/-- **`htable_get`** always returns. -/
theorem htableGet_spec (hi : Inv hash ht M) (key : CStr) : ∃ ht', htableGet hash ht key =
    .ok (ht', ofLookup (M.lookup (clip key))) ∧ Inv hash ht' M ∧
      (probeWindow ≤ ht.cap → ht' = ht) := by
  obtain ⟨ht1, hr, hi1, -, hsame⟩ := htableResize_window hi
  refine ⟨ht1, ?_, hi1, hsame⟩
  unfold htableGet
  rw [hr, ok_bind]
  rcases hf : findKey hash ht1 key with _ | j
  · rw [lookup_of_findKey_none hi1 hf]; rfl
  · rw [lookup_of_findKey hi1 hf]; rfl

/-- **`htable_xchg`** always returns. -/
theorem htableXchg_spec (hi : Inv hash ht M) (key : CStr) (value : ℕ) : ∃ ht',
    htableXchg hash ht key value =
    .ok (ht', (mapXchg M key value).2) ∧ Inv hash ht' (mapXchg M key value).1 := by
  obtain ⟨ht1, hr, hi1, -, -⟩ := htableResize_window hi
  unfold htableXchg mapXchg
  rw [hr, ok_bind]
  rcases hf : findKey hash ht1 key with _ | j
  · rw [lookup_of_findKey_none hi1 hf]
    exact ⟨ht1, rfl, hi1⟩
  · have hl := lookup_of_findKey hi1 hf
    have hkey := key_of_findKey hi1 hf
    rw [hl]
    refine ⟨_, rfl, ?_⟩
    rw [hkey]
    obtain ⟨hp, hs⟩ := hi1.placed.assign hkey value
    refine ⟨hi1.pow2, (List.length_set ..).trans hi1.length, hp, fun {k v} h => ?_,
      hi1.rep.insert hs, ?_, hi1.room⟩
    · rcases (hs k v).mp h with ⟨rfl, -⟩ | ⟨-, h⟩
      · exact clip_clip key
      · exact hi1.clipped h
    · rw [keys_insert_of_mem (Finmap.mem_of_lookup_eq_some hl)]
      exact hi1.len

/-- **`htable_del`** always returns. -/
theorem htableDel_spec (hi : Inv hash ht M) (key : CStr) : ∃ ht', htableDel hash ht key =
    .ok (ht', (mapDel M key).2) ∧ Inv hash ht' (mapDel M key).1 := by
  obtain ⟨ht1, hr, hi1, hcap', -⟩ := htableResize_window hi
  have hcap : probeWindow ≤ ht1.cap := hcap' ▸ le_max_right ..
  unfold htableDel mapDel
  rw [hr, ok_bind]
  rcases hf : findKey hash ht1 key with _ | j
  · rw [lookup_of_findKey_none hi1 hf]
    exact ⟨ht1, rfl, hi1⟩
  · have hl := lookup_of_findKey hi1 hf
    rw [hl]
    refine ⟨_, rfl, ?_⟩
    obtain ⟨hp, hs⟩ := hi1.placed.clear (key_of_findKey hi1 hf) (bucketAt ht1.table j).value
    refine ⟨hi1.pow2, (List.length_set ..).trans hi1.length, hp,
      fun {k v} h => hi1.clipped ((hs k v).mp h).2, hi1.rep.erase hs, ?_, fun _ => hcap⟩
    rw [Finmap.keys_erase, Finset.card_erase_of_mem
      (Finmap.mem_keys.mpr (Finmap.mem_of_lookup_eq_some hl)), ← hi1.len]

/-- **`htable_put`**, where it returns. -/
theorem htablePutFrom_spec : ∀ {fuel : ℕ} {ht : Htable}, Inv hash ht M →
    htablePutFrom hash key value fuel ht = .ok (ht', r) →
      Inv hash ht' (mapPut M key value).1 ∧ r = (mapPut M key value).2
  | 0, _, _, h => nomatch h
  | fuel + 1, ht, hi, h => by
    obtain ⟨ht1, hr, hi1, hcap', -⟩ := htableResize_window hi
    have hcap : probeWindow ≤ ht1.cap := hcap' ▸ le_max_right ..
    unfold htablePutFrom at h
    rw [hr, ok_bind] at h
    have hscan := putScan_spec ht1.table key (window hash ht1.cap key) none
    split at hscan
    · rename_i j hj
      obtain ⟨k, hk, hck⟩ := hscan
      have hl : M.lookup (clip key) = some (bucketAt ht1.table j).value := by
        rw [← hck, hi1.clipped ⟨j, hk, rfl⟩]
        exact (hi1.rep _ _).mpr ⟨j, hk, rfl⟩
      rw [hj] at h
      cases h
      unfold mapPut
      rw [hl]
      exact ⟨hi1, rfl⟩
    · rename_i e he
      rw [he] at h
      obtain ⟨hmiss, hempty, -⟩ := hscan
      have hns : ∀ v, ¬ Stored ht1.table (clip key) v := by
        rintro v ⟨j, hj, -⟩
        have hw := hi1.placed.window hj
        rw [window_clip] at hw
        exact hmiss j hw _ hj (clip_clip key)
      have hnm : clip key ∉ M := hi1.rep.notMem_iff.mpr hns
      cases e with
      | none =>
        obtain ⟨ht2, hr2, h⟩ := bind_eq_ok.mp h
        exact htablePutFrom_spec (htableResizeFrom_spec hi1 hr2).1 h
      | some j =>
        cases h
        obtain ⟨hjw, hje⟩ := (hempty j rfl).resolve_left (fun h => nomatch h)
        have hpos : 0 < ht1.cap := lt_of_lt_of_le (by decide) hcap
        obtain ⟨hp, hs⟩ := hi1.placed.put (window_clip ht1.cap key ▸ hjw)
          (hi1.length ▸ lt_of_mem_window hpos hjw) hje hns value
        unfold mapPut
        rw [Finmap.lookup_eq_none.mpr hnm]
        refine ⟨⟨hi1.pow2, (List.length_set ..).trans hi1.length, hp, fun {k v} h => ?_,
          hi1.rep.insert fun k v => ?_, ?_, fun _ => hcap⟩, rfl⟩
        · rcases (hs k v).mp h with ⟨rfl, -⟩ | h
          · exact clip_clip key
          · exact hi1.clipped h
        · rw [hs]
          refine or_congr_right ⟨fun h => ⟨?_, h⟩, And.right⟩
          rintro rfl
          exact hns _ h
        · rw [keys_insert_of_notMem hnm, ← hi1.len]

theorem htablePut_spec (hi : Inv hash ht M) (h : htablePut hash ht key value = .ok (ht', r)) :
    Inv hash ht' (mapPut M key value).1 ∧ r = (mapPut M key value).2 :=
  htablePutFrom_spec hi h

/-- **A key that is there** is found at once, and the table stays as it is. -/
theorem htablePut_present (hi : Inv hash ht M) {old : ℕ} (h : M.lookup (clip key) = some old) :
    htablePut hash ht key value = .ok (ht, ⟨false, old⟩) := by
  obtain ⟨ht1, hr, -, -, hsame⟩ := htableResize_window hi
  have hmem := Finmap.mem_keys.mpr (Finmap.mem_of_lookup_eq_some h)
  cases hsame (hi.room (by rw [hi.len]; exact Finset.card_ne_zero_of_mem hmem))
  show htablePutFrom hash key value (64 + 1) ht = _
  unfold htablePutFrom
  rw [hr, ok_bind]
  have hscan := putScan_spec ht.table key (window hash ht.cap key) none
  split at hscan
  · rename_i j hj
    obtain ⟨k, hk, hck⟩ := hscan
    have hl := (hi.rep _ _).mpr ⟨j, hk, rfl⟩
    rw [← hi.clipped ⟨j, hk, rfl⟩, hck, h] at hl
    rw [hj, Option.some.inj hl]
  · obtain ⟨j, hj, -⟩ := (hi.rep _ _).mp h
    have hw := hi.placed.window hj
    rw [window_clip] at hw
    exact absurd (clip_clip key) (hscan.1 j hw _ hj)

end Specs

/-! ### Entries -/

theorem mem_htableItems {ht : Htable} {k : CStr} {v : ℕ} :
    (k, v) ∈ htableItems ht ↔ Stored ht.table k v := by
  rw [stored_iff_mem]
  unfold htableItems
  rw [List.mem_filterMap]
  constructor
  · rintro ⟨⟨_ | k', v'⟩, hb, he⟩
    · cases he
    · cases he
      exact hb
  · intro h
    exact ⟨_, h, rfl⟩

/-- **The entries of a table**, one for each key of the map. -/
theorem htableItems_nodup {ht : Htable} {M : KeyMap} (hi : Inv hash ht M) :
    ((htableItems ht).map Prod.fst).Nodup := by
  unfold htableItems
  rw [List.map_filterMap]
  refine List.Pairwise.filterMap _ (fun b b' hb x hx y hy => ?_) hi.placed.pairwise
  obtain ⟨_ | k, v⟩ := b
  · cases hx
  obtain ⟨_ | k', v'⟩ := b'
  · cases hy
  cases hx
  cases hy
  exact fun hkk => hb k rfl (congrArg some hkk.symm)

/-- The keys of a table. -/
def keysOf (ht : Htable) : Finset CStr := ((htableItems ht).map Prod.fst).toFinset

theorem keysOf_eq {ht : Htable} {M : KeyMap} (hi : Inv hash ht M) : keysOf ht = M.keys := by
  ext k
  rw [keysOf, List.mem_toFinset, List.mem_map, Finmap.mem_keys, Finmap.mem_iff]
  constructor
  · rintro ⟨⟨k, v⟩, hitem, rfl⟩
    exact ⟨v, (hi.rep k v).mpr (mem_htableItems.mp hitem)⟩
  · rintro ⟨v, hv⟩
    exact ⟨(k, v), mem_htableItems.mpr ((hi.rep k v).mp hv), rfl⟩

/-! ### Faults -/

theorem growCap_fault {cap : ℕ} : ∀ {fuel n : ℕ} {e : Fault}, growCap cap fuel n = .error e →
    e = .diverge
  | 0, _, _, h => by cases h; rfl
  | fuel + 1, n, e, h => by
    unfold growCap at h
    split_ifs at h
    exact growCap_fault h

theorem htableResizeFrom_fault {ht : Htable} : ∀ {fuel cap : ℕ} {e : Fault},
    htableResizeFrom hash ht fuel cap = .error e → e = .diverge
  | 0, _, _, h => by cases h; rfl
  | fuel + 1, cap, e, h => by
    unfold htableResizeFrom at h
    by_cases hle : cap ≤ ht.cap
    · rw [if_pos hle] at h; cases h
    rw [if_neg hle] at h
    rcases hg : growCap cap doublings (if ht.cap = 0 then 1 else ht.cap) with e' | newCap
    · rw [hg] at h
      cases h
      exact growCap_fault hg
    · rw [hg, ok_bind] at h
      split at h
      · cases h
      · exact htableResizeFrom_fault h

/-- **An insertion can only fail to end.** -/
theorem htablePutFrom_fault {key : CStr} {value : ℕ} : ∀ {fuel : ℕ} {ht : Htable} {e : Fault},
    htablePutFrom hash key value fuel ht = .error e → e = .diverge
  | 0, _, _, h => by cases h; rfl
  | fuel + 1, ht, e, h => by
    unfold htablePutFrom at h
    rcases hr : htableResize hash ht probeWindow with e' | ht1
    · rw [hr] at h
      cases h
      exact htableResizeFrom_fault hr
    rw [hr, ok_bind] at h
    split at h
    · cases h
    · cases h
    · rcases hr2 : htableResize hash ht1 (w64 (ht1.cap * 2)) with e' | ht2
      · rw [hr2] at h
        cases h
        exact htableResizeFrom_fault hr2
      · rw [hr2, ok_bind] at h
        exact htablePutFrom_fault h

/-! ### Runs -/

/-- The operations on a table. -/
inductive Op where
  | put (key : CStr) (value : ℕ)
  | get (key : CStr)
  | xchg (key : CStr) (value : ℕ)
  | del (key : CStr)
  | reserve (items : ℕ)
  | reset

/-- A call on the table, with what it returns. -/
def exec (hash : CStr → UInt64) (ht : Htable) : Op → Outcome (Htable × Option HtableRet)
  | .put key value => (Prod.map id some) <$> htablePut hash ht key value
  | .get key => (Prod.map id some) <$> htableGet hash ht key
  | .xchg key value => (Prod.map id some) <$> htableXchg hash ht key value
  | .del key => (Prod.map id some) <$> htableDel hash ht key
  | .reserve items => (·, none) <$> htableReserve hash ht items
  | .reset => .ok (htableReset ht, none)

/-- The same call on a map. -/
def execMap (M : KeyMap) : Op → KeyMap × Option HtableRet
  | .put key value => (mapPut M key value).map id some
  | .get key => (M, some (ofLookup (M.lookup (clip key))))
  | .xchg key value => (mapXchg M key value).map id some
  | .del key => (mapDel M key).map id some
  | .reserve _ => (M, none)
  | .reset => (∅, none)

/-- The calls of a list, one after the other. -/
def run (hash : CStr → UInt64) : Htable → List Op → Outcome (Htable × List (Option HtableRet))
  | ht, [] => .ok (ht, [])
  | ht, op :: ops => do
    let (ht, r) ← exec hash ht op
    let (ht, rs) ← run hash ht ops
    .ok (ht, r :: rs)

def runMap : KeyMap → List Op → KeyMap × List (Option HtableRet)
  | M, [] => (M, [])
  | M, op :: ops =>
    let (M, r) := execMap M op
    (runMap M ops).map id (r :: ·)

theorem map_eq_ok {α β : Type} {x : Outcome α} {f : α → β} {r : β} (h : f <$> x = .ok r) :
    ∃ a, x = .ok a ∧ f a = r := by
  cases x with
  | ok a => cases h; exact ⟨a, rfl, rfl⟩
  | error e => cases h

/-- **One call.** -/
theorem exec_spec {ht ht' : Htable} {M : KeyMap} {op : Op} {r : Option HtableRet}
    (hi : Inv hash ht M) (h : exec hash ht op = .ok (ht', r)) :
    Inv hash ht' (execMap M op).1 ∧ r = (execMap M op).2 := by
  cases op with
  | put key value =>
    obtain ⟨⟨ht1, r1⟩, hp, he⟩ := map_eq_ok h
    cases he
    obtain ⟨hi', hr⟩ := htablePut_spec hi hp
    exact ⟨hi', congrArg some hr⟩
  | get key =>
    obtain ⟨ht1, hg, hi', -⟩ := htableGet_spec hi key
    obtain ⟨res, hres, he⟩ := map_eq_ok h
    cases hg.symm.trans hres
    cases he
    exact ⟨hi', rfl⟩
  | xchg key value =>
    obtain ⟨ht1, hx, hi'⟩ := htableXchg_spec hi key value
    obtain ⟨res, hres, he⟩ := map_eq_ok h
    cases hx.symm.trans hres
    cases he
    exact ⟨hi', rfl⟩
  | del key =>
    obtain ⟨ht1, hd, hi'⟩ := htableDel_spec hi key
    obtain ⟨res, hres, he⟩ := map_eq_ok h
    cases hd.symm.trans hres
    cases he
    exact ⟨hi', rfl⟩
  | reserve items =>
    obtain ⟨ht1, hr, he⟩ := map_eq_ok h
    cases he
    exact ⟨(htableResizeFrom_spec hi hr).1, rfl⟩
  | reset =>
    cases h
    exact ⟨inv_zero, rfl⟩

theorem run_spec : ∀ {ops : List Op} {ht ht' : Htable} {M : KeyMap} {rs : List (Option HtableRet)},
    Inv hash ht M → run hash ht ops = .ok (ht', rs) →
      Inv hash ht' (runMap M ops).1 ∧ rs = (runMap M ops).2
  | [], _, _, _, _, hi, h => by
    cases h
    exact ⟨hi, rfl⟩
  | op :: ops, ht, ht', M, rs, hi, h => by
    obtain ⟨⟨ht1, r1⟩, he, h⟩ := bind_eq_ok.mp h
    obtain ⟨⟨ht2, rs2⟩, hr, h⟩ := bind_eq_ok.mp h
    cases h
    obtain ⟨hi1, hr1⟩ := exec_spec hi he
    obtain ⟨hi2, hr2⟩ := run_spec hi1 hr
    refine ⟨hi2, ?_⟩
    rw [hr1, hr2]
    rfl

/-- Some run from the zero table ends with the table. -/
def Reachable (hash : CStr → UInt64) (ht : Htable) : Prop :=
  ∃ ops rs, run hash Htable.zero ops = .ok (ht, rs)

theorem Reachable.inv {ht : Htable} (h : Reachable hash ht) : ∃ M, Inv hash ht M := by
  obtain ⟨ops, rs, hrun⟩ := h
  exact ⟨_, (run_spec inv_zero hrun).1⟩

/-- **A table is a finite map.** A run from the zero table returns, call by call, what the same run
on the empty map returns; the table then holds the entries of the map, each key at one position, and
`len` counts them. -/
theorem run_refines {ops : List Op} {ht : Htable} {rs : List (Option HtableRet)}
    (h : run hash Htable.zero ops = .ok (ht, rs)) :
    ∃ M : KeyMap, runMap ∅ ops = (M, rs) ∧ ht.len = M.keys.card ∧
      (∀ k v, M.lookup k = some v ↔ Stored ht.table k v) ∧
      ∀ j j' k, (bucketAt ht.table j).key = some k → (bucketAt ht.table j').key = some k →
        j = j' := by
  obtain ⟨hi, hrs⟩ := run_spec inv_zero h
  exact ⟨_, Prod.ext rfl hrs.symm, hi.len, hi.rep, fun _ _ _ h1 h2 => hi.placed.unique h1 h2⟩

/-- Two keys in one window: the second is found behind the hole the first leaves. -/
def holeOps : List Op :=
  [.put nameA 1, .put nameB 2, .del nameA, .put nameB 3, .put nameA 4, .xchg nameB 5, .get nameB]

theorem run_refines_hole : ∃ M : KeyMap, M.keys.card = 2 ∧ (runMap ∅ holeOps).2 =
    [some ⟨true, 0⟩, some ⟨true, 0⟩, some ⟨true, 1⟩, some ⟨false, 2⟩, some ⟨true, 0⟩,
      some ⟨true, 2⟩, some ⟨true, 5⟩] := by
  have hrun : ∃ ht rs, run (fun _ => 0) Htable.zero holeOps = .ok (ht, rs) ∧ ht.len = 2 ∧ rs =
      [some ⟨true, 0⟩, some ⟨true, 0⟩, some ⟨true, 1⟩, some ⟨false, 2⟩, some ⟨true, 0⟩,
        some ⟨true, 2⟩, some ⟨true, 5⟩] := ⟨_, _, rfl, rfl, rfl⟩
  obtain ⟨ht, rs, hr, hlen, hrs⟩ := hrun
  obtain ⟨M, hM, hcard, -⟩ := run_refines hr
  exact ⟨M, hcard.symm.trans hlen, by rw [hM, hrs]⟩

end Optics.Utils.HtableMap
