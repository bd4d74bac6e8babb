import Optics.Utils.HtableMap

/-! # Growing a hash table ends

An insertion doubles the table until the window of its key has an empty bucket. Once the capacity is
a power of two modulo which no two of the keys have the same hash, rehashing leaves every key in the
first bucket of its window (`Homes`), so that the window of another key cannot be full. -/

namespace Optics.Utils.HtableGrowth

open Optics.Base Optics.Lib.Probing Optics.Utils.Htables Optics.Utils.HtableMap

/-- No two of the keys have the same hash modulo `2^n`. -/
def Apart (hash : CStr → UInt64) (n : ℕ) (S : Finset CStr) : Prop :=
  ∀ k ∈ S, ∀ k' ∈ S, (hash k).toNat % 2 ^ n = (hash k').toNat % 2 ^ n → k = k'

/-- Every key is one of `S` and lies in the first bucket of its window. -/
def Homes (hash : CStr → UInt64) (cap : ℕ) (S : Finset CStr) (T : List (Bucket CStr ℕ)) : Prop :=
  ∀ j k, (bucketAt T j).key = some k → k ∈ S ∧ j = slot hash cap k 0

section Growth
variable {hash : CStr → UInt64} {n : ℕ} {S : Finset CStr}

theorem slot_zero (cap : ℕ) (key : CStr) :
    slot hash cap key 0 = (hash (clip key)).toNat % cap := by
  unfold slot
  rw [show UInt64.ofNat 0 = 0 from rfl, UInt64.add_zero]

/-- First buckets coincide for equal keys only. -/
theorem Apart.slot_inj (hA : Apart hash n S) (hS : ∀ k ∈ S, clip k = k) {m : ℕ} (hm : n ≤ m)
    {k k' : CStr} (hk : k ∈ S) (hk' : k' ∈ S)
    (h : slot hash (2 ^ m) k 0 = slot hash (2 ^ m) k' 0) : k = k' := by
  rw [slot_zero, slot_zero, hS k hk, hS k' hk'] at h
  have h2 := congrArg (· % 2 ^ n) h
  simp only [Nat.mod_mod_of_dvd _ (pow_dvd_pow 2 hm)] at h2
  exact hA k hk k' hk' h2

theorem slot_mem_window (cap : ℕ) (key : CStr) : slot hash cap key 0 ∈ window hash cap key :=
  List.mem_map_of_mem (List.mem_range.mpr (by decide))

theorem tablePut_home {T : List (Bucket CStr ℕ)} {cap v : ℕ} {k : CStr}
    (h : (bucketAt T (slot hash cap k 0)).key = none) :
    tablePut hash T cap k v = some (T.set (slot hash cap k 0) ⟨some k, v⟩) := by
  have hw : window hash cap k =
      slot hash cap k 0 :: (List.range' 1 7).map (slot hash cap k) := rfl
  unfold tablePut
  rw [hw, List.find?_cons_of_pos (by rw [h]; rfl)]

/-- **Rehashing keys whose hashes are apart** puts each into the first bucket of its window. -/
theorem rehash_home (hA : Apart hash n S) (hS : ∀ k ∈ S, clip k = k) {m : ℕ} (hm : n ≤ m) :
    ∀ (bs T : List (Bucket CStr ℕ)), (∀ k v, ⟨some k, v⟩ ∈ bs → k ∈ S) →
      bs.Pairwise (fun b b' => ∀ k, b.key = some k → b'.key ≠ some k) → T.length = 2 ^ m →
      Homes hash (2 ^ m) S T → (∀ k v, ⟨some k, v⟩ ∈ bs → ∀ v', ¬ Stored T k v') →
      ∃ T', rehash hash (2 ^ m) bs T = some T' ∧ Homes hash (2 ^ m) S T'
  | [], T, _, _, _, hT, _ => ⟨T, rfl, hT⟩
  | ⟨none, v0⟩ :: bs, T, hbs, hpw, hlen, hT, hnew => by
    obtain ⟨T', h⟩ := rehash_home hA hS hm bs T
      (fun k v h => hbs k v (List.mem_cons_of_mem _ h))
      (List.pairwise_cons.mp hpw).2 hlen hT fun k v h => hnew k v (List.mem_cons_of_mem _ h)
    exact ⟨T', h⟩
  | ⟨some k0, v0⟩ :: bs, T, hbs, hpw, hlen, hT, hnew => by
    have hpw' := List.pairwise_cons.mp hpw
    have hk0 : k0 ∈ S := hbs k0 v0 (List.mem_cons_self ..)
    have hns := hnew k0 v0 (List.mem_cons_self ..)
    have hfree : (bucketAt T (slot hash (2 ^ m) k0 0)).key = none := by
      rcases hb : (bucketAt T (slot hash (2 ^ m) k0 0)).key with _ | k
      · rfl
      · obtain ⟨hk, hj⟩ := hT _ k hb
        cases hA.slot_inj hS hm hk0 hk hj
        exact absurd ⟨_, hb, rfl⟩ (hns _)
    have hlt : slot hash (2 ^ m) k0 0 < T.length := by
      rw [hlen]
      exact slot_lt (Nat.two_pow_pos m) k0 0
    have hset : ∀ j, bucketAt (T.set (slot hash (2 ^ m) k0 0) ⟨some k0, v0⟩) j = _ :=
      bucketAt_set hlt _
    have hhomes : Homes hash (2 ^ m) S (T.set (slot hash (2 ^ m) k0 0) ⟨some k0, v0⟩) := by
      intro j k hj
      rw [hset] at hj
      split_ifs at hj with hjs
      · cases hj
        exact ⟨hk0, hjs⟩
      · exact hT j k hj
    obtain ⟨T', hT', hh⟩ := rehash_home hA hS hm bs _
      (fun k v h => hbs k v (List.mem_cons_of_mem _ h)) hpw'.2
      ((List.length_set ..).trans hlen) hhomes (by
        rintro k v h v' ⟨j, hj, rfl⟩
        rw [hset] at hj
        split_ifs at hj with hjs
        · cases hj
          exact hpw'.1 _ h _ rfl rfl
        · exact hnew k v (List.mem_cons_of_mem _ h) _ ⟨j, hj, rfl⟩)
    refine ⟨T', ?_, hh⟩
    unfold rehash
    rw [tablePut_home hfree]
    exact hT'

variable {ht : Htable} {M : KeyMap} {key : CStr} {value : ℕ}

/-- **Resizing ends**, at the latest where the hashes are apart. -/
theorem htableResizeFrom_home (hA : Apart hash n S) (hS : ∀ k ∈ S, clip k = k) (hn : n < 64)
    (hi : Inv hash ht M) (hM : M.keys ⊆ S) {a : ℕ} (ha : ht.cap = 2 ^ a) :
    ∀ (fuel b : ℕ), a < b → b < 64 → 64 - b < fuel →
      ∃ ht' c, htableResizeFrom hash ht fuel (2 ^ b) = .ok ht' ∧ ht'.cap = 2 ^ c ∧ b ≤ c ∧
        c ≤ max b n ∧ (n ≤ c → Homes hash ht'.cap S ht'.table)
  | fuel + 1, b, hab, hb, hf => by
    have hlt : ht.cap < 2 ^ b := ha ▸ Nat.pow_lt_pow_right Nat.one_lt_two hab
    have hgrow : growCap (2 ^ b) doublings (if ht.cap = 0 then 1 else ht.cap) = .ok (2 ^ b) := by
      rw [if_neg (by rw [ha]; exact (Nat.two_pow_pos a).ne'), ha]
      exact growCap_pow hab.le hb (by unfold doublings; omega)
    have hmem : ∀ k v, ⟨some k, v⟩ ∈ ht.table → k ∈ S := fun k v h =>
      hM (Finmap.mem_keys.mpr (Finmap.mem_of_lookup_eq_some
        ((hi.rep k v).mpr (stored_iff_mem.mpr h))))
    have hhome : n ≤ b → ∃ T, rehash hash (2 ^ b) ht.table (List.replicate (2 ^ b) ⟨none, 0⟩) =
        some T ∧ Homes hash (2 ^ b) S T := fun hnb =>
      rehash_home hA hS hnb _ _ hmem hi.placed.pairwise (List.length_replicate ..)
        (fun j k h => absurd h (by
          rw [show List.replicate (2 ^ b) (⟨none, 0⟩ : Bucket CStr ℕ) =
            List.replicate (2 ^ b) ⟨none, default⟩ from rfl, bucketAt_replicate]
          exact (Option.some_ne_none k).symm))
        fun _ _ _ _ => not_stored_replicate
    unfold htableResizeFrom
    rw [if_neg (by omega), hgrow, ok_bind]
    rcases hr : rehash hash (2 ^ b) ht.table (List.replicate (2 ^ b) ⟨none, 0⟩) with _ | T
    · have hbn : b < n := by
        by_contra hnb
        obtain ⟨T, hT, -⟩ := hhome (by omega)
        rw [hr] at hT
        cases hT
      have hw : w64 (2 ^ b * 2) = 2 ^ (b + 1) :=
        w64_eq (Nat.pow_lt_pow_right Nat.one_lt_two (show b + 1 < 64 by omega))
      simp only [hw]
      obtain ⟨ht', c, h, hc, h1, h2, h3⟩ := htableResizeFrom_home hA hS hn hi hM ha
        fuel (b + 1) (by omega) (by omega) (by omega)
      exact ⟨ht', c, h, hc, by omega, by omega, h3⟩
    · refine ⟨_, b, rfl, rfl, le_rfl, le_max_left .., fun hnb => ?_⟩
      obtain ⟨T', hT', hh⟩ := hhome hnb
      rw [hr] at hT'
      cases hT'
      exact hh

/-! ### Insertions -/

theorem putScan_some {T : List (Bucket CStr ℕ)} {i : ℕ} {e : Option ℕ} : ∀ {js : List ℕ},
    putScan T key js (some i) = .missing e → e = some i
  | [], h => by
    cases h
    rfl
  | j :: js, h => by
    unfold putScan at h
    rcases hb : (bucketAt T j).key with _ | k
    · rw [hb] at h
      exact putScan_some h
    · rw [hb] at h
      dsimp only at h
      split_ifs at h
      exact putScan_some h

/-- A key that is missing goes into the first bucket of its window if that is empty. -/
theorem putScan_home {T : List (Bucket CStr ℕ)} {cap : ℕ} {e : Option ℕ}
    (h : (bucketAt T (slot hash cap key 0)).key = none)
    (hs : putScan T key (window hash cap key) none = .missing e) : e = some (slot hash cap key 0) := by
  have hw : window hash cap key =
      slot hash cap key 0 :: (List.range' 1 7).map (slot hash cap key) := rfl
  rw [hw] at hs
  unfold putScan at hs
  rw [h] at hs
  exact putScan_some hs

theorem Homes.set {T : List (Bucket CStr ℕ)} {cap : ℕ} (h : Homes hash cap S T)
    (hlen : slot hash cap key 0 < T.length) (hkey : clip key ∈ S) :
    Homes hash cap S (T.set (slot hash cap key 0) ⟨some (clip key), value⟩) := by
  intro j k hj
  rw [bucketAt_set hlen] at hj
  split_ifs at hj with hjs
  · cases hj
    refine ⟨hkey, hjs.trans ?_⟩
    rw [slot_zero, slot_zero, clip_clip]
  · exact h j k hj

/-- The first bucket of the window of a key that is missing is empty if the keys are at home. -/
theorem Homes.free {a : ℕ} {T : List (Bucket CStr ℕ)} (h : Homes hash (2 ^ a) S T)
    (hA : Apart hash n S) (hS : ∀ k ∈ S, clip k = k) (hna : n ≤ a) (hkey : clip key ∈ S)
    (hmiss : ∀ j ∈ window hash (2 ^ a) key, ∀ k, (bucketAt T j).key = some k → clip k ≠ clip key) :
    (bucketAt T (slot hash (2 ^ a) key 0)).key = none := by
  by_contra hc
  obtain ⟨k, hk⟩ := Option.ne_none_iff_exists'.mp hc
  obtain ⟨hkS, hj⟩ := h _ k hk
  have hj' : slot hash (2 ^ a) (clip key) 0 = slot hash (2 ^ a) k 0 := by
    rw [slot_zero, clip_clip, ← slot_zero]
    exact hj
  have heq := hA.slot_inj hS hna hkey hkS hj'
  exact hmiss _ (slot_mem_window (2 ^ a) key) k hk (by rw [← heq, clip_clip])

/-- A table that started from a capacity of `2 ^ lo`, of keys whose hashes are apart modulo `2 ^ n`: it
has not grown past twice that capacity and `2 ^ n`, and once it has grown to `2 ^ n` every key lies in
the first bucket of its window. -/
structure Settling (hash : CStr → UInt64) (n lo : ℕ) (S : Finset CStr) (ht : Htable) (a : ℕ) :
    Prop where
  cap : ht.cap = 2 ^ a
  window : 3 ≤ a
  le : a ≤ max (lo + 1) n
  homes : lo < a → n ≤ a → Homes hash ht.cap S ht.table

theorem Settling.probeWindow_le {lo a : ℕ} (h : Settling hash n lo S ht a) :
    probeWindow ≤ ht.cap := by
  rw [h.cap]
  exact Nat.pow_le_pow_right Nat.two_pos h.window

/-- **An insertion returns**, and the table goes on settling. -/
theorem htablePutFrom_settling (hA : Apart hash n S) (hS : ∀ k ∈ S, clip k = k) (hn : n < 64)
    {lo : ℕ} (hlo : lo < 63) (hM : M.keys ⊆ S) (hkey : clip key ∈ S) (value : ℕ) :
    ∀ (fuel : ℕ) {a : ℕ} {ht : Htable}, Inv hash ht M → Settling hash n lo S ht a → 64 - a < fuel →
      ∃ ht' r b, htablePutFrom hash key value fuel ht = .ok (ht', r) ∧ Settling hash n lo S ht' b
  | fuel + 1, a, ht, hi, hset, hf => by
    obtain ⟨ht1, hr, -, -, hsame⟩ := htableResize_window hi
    cases hsame hset.probeWindow_le
    have hcap := hset.cap
    have hle := hset.le
    unfold htablePutFrom
    rw [hr, ok_bind]
    have hscan := putScan_spec ht.table key (window hash ht.cap key) none
    split at hscan
    · rename_i j hj
      rw [hj]
      exact ⟨_, _, a, rfl, hset⟩
    · rename_i e he
      obtain ⟨hmiss, -, hfull⟩ := hscan
      have hhome : lo < a → n ≤ a → (bucketAt ht.table (slot hash ht.cap key 0)).key = none := by
        intro hla hna
        have hh := hset.homes hla hna
        rw [hcap] at hh hmiss ⊢
        exact hh.free hA hS hna hkey hmiss
      rw [he]
      cases e with
      | some j =>
        refine ⟨_, _, a, rfl, hcap, hset.window, hle, fun hla hna => ?_⟩
        have hj := Option.some.inj (putScan_home (hhome hla hna) he)
        have hlt : slot hash ht.cap key 0 < ht.table.length := by
          rw [hi.length]
          exact slot_lt (by rw [hcap]; exact Nat.two_pow_pos a) key 0
        rw [hj]
        exact (hset.homes hla hna).set hlt hkey
      | none =>
        -- the window is full, so that the table has not settled
        have hgrow : ¬(lo < a ∧ n ≤ a) := by
          rintro ⟨hla, hna⟩
          exact (hfull rfl).2 _ (slot_mem_window ht.cap key) (hhome hla hna)
        have hw : w64 (ht.cap * 2) = 2 ^ (a + 1) := by
          rw [hcap]
          exact w64_eq (Nat.pow_lt_pow_right Nat.one_lt_two (show a + 1 < 64 by omega))
        obtain ⟨ht2, c, hr2, hc, h1, h2, hh2⟩ := htableResizeFrom_home hA hS hn hi hM hcap
          doublings (a + 1) (by omega) (by omega) (by unfold doublings; omega)
        have h3 := hset.window
        obtain ⟨ht', r, b, hput, hb⟩ := htablePutFrom_settling hA hS hn hlo hM hkey value fuel
          (htableResizeFrom_spec hi hr2).1 ⟨hc, by omega, by omega, fun _ => hh2⟩ (by omega)
        refine ⟨ht', r, b, ?_, hb⟩
        simp only [hw]
        show (htableResize hash ht (2 ^ (a + 1)) >>= _) = _
        rw [show htableResize hash ht (2 ^ (a + 1)) = .ok ht2 from hr2, ok_bind]
        exact hput

/-- A table before its first insertion: it has a window, or is too small to hold a key. -/
theorem exists_settling (key : CStr) (hi : Inv hash ht M) (hcap : ht.cap < 2 ^ 63) :
    ∃ ht1 lo, htablePut hash ht key value = htablePut hash ht1 key value ∧ Inv hash ht1 M ∧
      ht1.cap = max ht.cap 8 ∧ lo < 63 ∧ Settling hash n lo S ht1 lo := by
  obtain ⟨ht1, hr, hi1, hw1, -⟩ := htableResize_window hi
  obtain ⟨ht2, hr2, -, -, hsame2⟩ := htableResize_window hi1
  have hput : htablePut hash ht key value = htablePut hash ht1 key value := by
    show htablePutFrom hash key value (64 + 1) ht = htablePutFrom hash key value (64 + 1) ht1
    unfold htablePutFrom
    rw [hr, hr2, hsame2 (hw1 ▸ le_max_right ..)]
  have hw : probeWindow ≤ ht1.cap := hw1 ▸ le_max_right ..
  obtain ⟨lo, hlo⟩ : ∃ lo, ht1.cap = 2 ^ lo := hi1.pow2.resolve_left (by
    intro h0
    rw [h0] at hw
    exact absurd hw (by decide))
  have h3 : 3 ≤ lo := (Nat.pow_le_pow_iff_right Nat.one_lt_two).mp (hlo ▸ hw)
  have h63 : lo < 63 := by
    refine (Nat.pow_lt_pow_iff_right Nat.one_lt_two).mp (?_ : 2 ^ lo < 2 ^ 63)
    rw [← hlo, hw1]
    exact max_lt hcap (by decide)
  exact ⟨ht1, lo, hput, hi1, hw1, h63, hlo, h3, by omega, fun h => absurd h (lt_irrefl _)⟩

theorem clip_of_mem_insert (key : CStr) (hi : Inv hash ht M) :
    ∀ k ∈ insert (clip key) M.keys, clip k = k := by
  intro k hk
  rcases Finset.mem_insert.mp hk with rfl | hk
  · exact clip_clip key
  · obtain ⟨v, hv⟩ := Finmap.mem_iff.mp (Finmap.mem_keys.mp hk)
    exact hi.clipped ((hi.rep k v).mp hv)

/-- **`htable_put` returns** if no two of the keys have the same hash modulo some `2^n`, and leaves a
capacity of twice the old one or of `2^n`. -/
theorem htablePut_returns (hi : Inv hash ht M) (hn : n < 64) (hcap : ht.cap < 2 ^ 63)
    (hA : Apart hash n (insert (clip key) M.keys)) :
    ∃ ht' r, htablePut hash ht key value = .ok (ht', r) ∧
      ht'.cap ≤ max (2 * max ht.cap 8) (2 ^ n) := by
  obtain ⟨ht1, lo, hput, hi1, hw1, h63, hset⟩ := exists_settling key hi hcap
  obtain ⟨ht', r, d, hp, hd⟩ := htablePutFrom_settling hA (clip_of_mem_insert key hi) hn h63
    (Finset.subset_insert ..) (Finset.mem_insert_self ..) value doublings hi1 hset
    (by unfold doublings; omega)
  refine ⟨ht', r, hput.trans hp, ?_⟩
  have h2 : 2 * max ht.cap 8 = 2 ^ (lo + 1) := by
    rw [pow_succ, ← hset.cap, hw1, mul_comm]
  have hle := hd.le
  rw [hd.cap, h2]
  rcases le_total (lo + 1) n with h | h
  · exact le_max_of_le_right (Nat.pow_le_pow_right Nat.two_pos (by omega))
  · exact le_max_of_le_left (Nat.pow_le_pow_right Nat.two_pos (by omega))

/-! ### Many insertions -/

/-- A table with room for keys whose hashes are apart modulo `2^n`: it has not grown past that, and
from there on every key lies in the first bucket of its window. -/
structure Roomy (hash : CStr → UInt64) (n : ℕ) (S : Finset CStr) (ht : Htable) (a : ℕ) : Prop where
  cap : ht.cap = 2 ^ a
  window : 3 ≤ a
  le : a ≤ max 3 n
  homes : n ≤ a → Homes hash ht.cap S ht.table

/-- Such a table has been settling from the start. -/
theorem roomy_iff {a : ℕ} : Roomy hash n S ht a ↔ Settling hash n 2 S ht a :=
  ⟨fun h => ⟨h.cap, h.window, h.le, fun _ => h.homes⟩,
    fun h => ⟨h.cap, h.window, h.le, h.homes h.window⟩⟩

theorem Roomy.probeWindow_le {a : ℕ} (h : Roomy hash n S ht a) : probeWindow ≤ ht.cap :=
  (roomy_iff.mp h).probeWindow_le

/-- **An insertion returns**, and leaves room for the next one. -/
theorem htablePutFrom_roomy (hA : Apart hash n S) (hS : ∀ k ∈ S, clip k = k) (hn : n < 64)
    (hM : M.keys ⊆ S) (hkey : clip key ∈ S) (value : ℕ) (fuel : ℕ) {a : ℕ} {ht : Htable}
    (hi : Inv hash ht M) (hroom : Roomy hash n S ht a) (hf : 64 - a < fuel) :
    ∃ ht' r b, htablePutFrom hash key value fuel ht = .ok (ht', r) ∧ Roomy hash n S ht' b := by
  obtain ⟨ht', r, b, hput, hb⟩ := htablePutFrom_settling hA hS hn (by decide) hM hkey value fuel hi
    (roomy_iff.mp hroom) hf
  exact ⟨ht', r, b, hput, roomy_iff.mpr hb⟩

/-- A table that takes keys whose hashes are apart: it has some room left, or is settling. -/
def Ready (hash : CStr → UInt64) (n : ℕ) (S : Finset CStr) (ht : Htable) : Prop :=
  ht.cap < 2 ^ 63 ∨ ∃ lo a, lo < 63 ∧ Settling hash n lo S ht a

/-- **An insertion returns**, and the table is ready for the next one. -/
theorem Ready.put (h : Ready hash n S ht) (hA : Apart hash n S) (hS : ∀ k ∈ S, clip k = k)
    (hn : n < 64) (hi : Inv hash ht M) (hM : M.keys ⊆ S) (hkey : clip key ∈ S) (value : ℕ) :
    ∃ ht' r, htablePut hash ht key value = .ok (ht', r) ∧ Ready hash n S ht' := by
  obtain ⟨ht1, lo, a, hput, hi1, hlo, hset⟩ : ∃ ht1 lo a,
      htablePut hash ht key value = htablePut hash ht1 key value ∧ Inv hash ht1 M ∧ lo < 63 ∧
        Settling hash n lo S ht1 a := by
    rcases h with hcap | ⟨lo, a, hlo, hset⟩
    · obtain ⟨ht1, lo, hput, hi1, -, hlo, hset⟩ := exists_settling key hi hcap
      exact ⟨ht1, lo, lo, hput, hi1, hlo, hset⟩
    · exact ⟨ht, lo, a, rfl, hi, hlo, hset⟩
  obtain ⟨ht', r, b, hrun, hb⟩ := htablePutFrom_settling hA hS hn hlo hM hkey value doublings hi1
    hset (by unfold doublings; omega)
  exact ⟨ht', r, hput.trans hrun, .inr ⟨lo, b, hlo, hb⟩⟩

/-- A table that is looked up for the first time gets a capacity of 8. -/
theorem htableGet_zero (key : CStr) : ∃ ht, htableGet hash Htable.zero key = .ok (ht, ⟨false, 0⟩) ∧
    Inv hash ht ∅ ∧ Roomy hash n S ht 3 := by
  obtain ⟨ht, hget, hi, -⟩ := htableGet_spec (@inv_zero hash) key
  refine ⟨ht, hget, hi, ?_⟩
  obtain ⟨ht1, hr, -, -, -⟩ := htableResize_window (@inv_zero hash)
  have hht : ht = ht1 := by
    unfold htableGet at hget
    rw [hr, ok_bind] at hget
    rcases hf : findKey hash ht1 key with _ | j
    · rw [hf] at hget
      cases hget
      rfl
    · rw [hf] at hget
      cases hget
  have hrun : htableResize hash Htable.zero probeWindow =
      .ok ⟨0, 8, List.replicate 8 ⟨none, 0⟩⟩ := rfl
  rw [hrun] at hr
  cases hr
  subst hht
  refine ⟨rfl, le_rfl, le_max_left _ _, fun _ j k hj => ?_⟩
  rw [show List.replicate 8 (⟨none, 0⟩ : Bucket CStr ℕ) = List.replicate 8 ⟨none, default⟩ from rfl,
    bucketAt_replicate] at hj
  cases hj

end Growth

end Optics.Utils.HtableGrowth
