import Mathlib.Data.Finmap
import Mathlib.Tactic.SplitIfs
import Mathlib.Tactic.Use
import Mathlib.Tactic.ByContra

/-! # Open addressing with a bounded probe window

A table is a list of buckets, each empty or holding a key and a value; every key has a window of
positions it may be kept at. A table is `Placed` if every key lies in its window and at one position
only; it `Represents` the finite map of its entries. Writing a key into an empty bucket of its window
(`Placed.put`), changing a value (`Placed.assign`) and emptying a bucket (`Placed.clear`) keep a
table placed and are insertion, insertion and erasure on the map: since a window is always searched
whole, an empty bucket in front of a key does not hide it. -/

namespace Optics.Lib.Probing

/-- A bucket: empty if it has no key. -/
structure Bucket (K V : Type*) where
  key : Option K
  value : V

variable {K V : Type*} [Inhabited V]

/-- The bucket at a position, empty beyond the end. -/
def bucketAt (T : List (Bucket K V)) (j : ℕ) : Bucket K V := T.getD j ⟨none, default⟩

/-- The table holds `v` under `k`. -/
def Stored (T : List (Bucket K V)) (k : K) (v : V) : Prop :=
  ∃ j, (bucketAt T j).key = some k ∧ (bucketAt T j).value = v

/-- Every key lies in its window, at one position only. -/
structure Placed (window : K → List ℕ) (T : List (Bucket K V)) : Prop where
  window : ∀ {j k}, (bucketAt T j).key = some k → j ∈ window k
  unique : ∀ {j j' k}, (bucketAt T j).key = some k → (bucketAt T j').key = some k → j = j'

theorem bucketAt_set {T : List (Bucket K V)} {i : ℕ} (hi : i < T.length) (b : Bucket K V) (j : ℕ) :
    bucketAt (T.set i b) j = if j = i then b else bucketAt T j := by
  unfold bucketAt
  rw [List.getD_eq_getElem?_getD, List.getD_eq_getElem?_getD, List.getElem?_set]
  split_ifs with h1 h2 h2
  · rfl
  · exact absurd h1.symm h2
  · exact absurd h2.symm h1
  · rfl

theorem bucketAt_eq_getElem {T : List (Bucket K V)} {j : ℕ} (hj : j < T.length) :
    bucketAt T j = T[j] := by
  unfold bucketAt
  rw [List.getD_eq_getElem?_getD, List.getElem?_eq_getElem hj, Option.getD_some]

theorem lt_length_of_key {T : List (Bucket K V)} {j : ℕ} {k : K}
    (h : (bucketAt T j).key = some k) : j < T.length := by
  by_contra hn
  unfold bucketAt at h
  rw [List.getD_eq_getElem?_getD, List.getElem?_eq_none (by omega)] at h
  cases h

theorem bucketAt_replicate (n j : ℕ) :
    bucketAt (List.replicate n (⟨none, default⟩ : Bucket K V)) j = ⟨none, default⟩ := by
  unfold bucketAt
  rw [List.getD_eq_getElem?_getD, List.getElem?_replicate]
  split_ifs <;> rfl

theorem placed_replicate (w : K → List ℕ) (n : ℕ) :
    Placed w (List.replicate n (⟨none, default⟩ : Bucket K V)) := by
  have hnone : ∀ {j k}, (bucketAt (List.replicate n (⟨none, default⟩ : Bucket K V)) j).key ≠
      some k := by
    intro j k h
    rw [bucketAt_replicate] at h
    cases h
  exact ⟨fun h => absurd h hnone, fun h _ => absurd h hnone⟩

theorem stored_iff_mem {T : List (Bucket K V)} {k : K} {v : V} :
    Stored T k v ↔ ⟨some k, v⟩ ∈ T := by
  constructor
  · rintro ⟨j, hk, hv⟩
    have hj := lt_length_of_key hk
    rw [bucketAt_eq_getElem hj] at hk hv
    exact hk ▸ hv ▸ List.getElem_mem hj
  · intro h
    obtain ⟨j, hj, hb⟩ := List.mem_iff_getElem.mp h
    exact ⟨j, by rw [bucketAt_eq_getElem hj, hb], by rw [bucketAt_eq_getElem hj, hb]⟩

theorem Placed.pairwise {w : K → List ℕ} {T : List (Bucket K V)} (h : Placed w T) :
    T.Pairwise fun b b' => ∀ k, b.key = some k → b'.key ≠ some k := by
  rw [List.pairwise_iff_getElem]
  intro i j hi hj hij k hik hjk
  rw [← bucketAt_eq_getElem] at hik hjk
  exact absurd (h.unique hik hjk) (by omega)

theorem not_stored_replicate {n : ℕ} {k : K} {v : V} :
    ¬ Stored (List.replicate n (⟨none, default⟩ : Bucket K V)) k v := by
  rintro ⟨j, h, -⟩
  rw [bucketAt_replicate] at h
  cases h

/-! ### The three edits -/

section Edits
variable {w : K → List ℕ} {T : List (Bucket K V)} {j : ℕ} {k : K}

/-- **A key in an empty bucket** of its window. -/
theorem Placed.put (h : Placed w T) (hj : j ∈ w k) (hlt : j < T.length)
    (he : (bucketAt T j).key = none) (hk : ∀ v, ¬ Stored T k v) (v : V) :
    Placed w (T.set j ⟨some k, v⟩) ∧
      ∀ k' v', Stored (T.set j ⟨some k, v⟩) k' v' ↔ (k' = k ∧ v' = v) ∨ Stored T k' v' := by
  have hkey : ∀ {i k'}, (bucketAt (T.set j ⟨some k, v⟩) i).key = some k' →
      (i = j ∧ k' = k) ∨ (i ≠ j ∧ (bucketAt T i).key = some k') := by
    intro i k' hi
    rw [bucketAt_set hlt] at hi
    split_ifs at hi with hij
    · exact Or.inl ⟨hij, (Option.some.inj hi).symm⟩
    · exact Or.inr ⟨hij, hi⟩
  refine ⟨⟨fun hi => ?_, fun hi hi' => ?_⟩, fun k' v' => ⟨?_, ?_⟩⟩
  · rcases hkey hi with ⟨rfl, rfl⟩ | ⟨-, hi⟩
    · exact hj
    · exact h.window hi
  · rcases hkey hi with ⟨h1, hk1⟩ | ⟨-, h1⟩ <;> rcases hkey hi' with ⟨h2, hk2⟩ | ⟨-, h2⟩
    · rw [h1, h2]
    · exact absurd ⟨_, hk1 ▸ h2, rfl⟩ (hk _)
    · exact absurd ⟨_, hk2 ▸ h1, rfl⟩ (hk _)
    · exact h.unique h1 h2
  · rintro ⟨i, hi, rfl⟩
    rw [bucketAt_set hlt] at hi ⊢
    split_ifs at hi ⊢
    · exact Or.inl ⟨(Option.some.inj hi).symm, rfl⟩
    · exact Or.inr ⟨i, hi, rfl⟩
  · rintro (⟨rfl, rfl⟩ | ⟨i, hi, rfl⟩)
    · exact ⟨j, by rw [bucketAt_set hlt, if_pos rfl], by rw [bucketAt_set hlt, if_pos rfl]⟩
    · have hij : i ≠ j := by
        rintro rfl
        rw [he] at hi; cases hi
      exact ⟨i, by rw [bucketAt_set hlt, if_neg hij]; exact hi,
        by rw [bucketAt_set hlt, if_neg hij]⟩

/-- **Another value** for a key. -/
theorem Placed.assign (h : Placed w T) (hj : (bucketAt T j).key = some k) (v : V) :
    Placed w (T.set j ⟨some k, v⟩) ∧
      ∀ k' v', Stored (T.set j ⟨some k, v⟩) k' v' ↔
        (k' = k ∧ v' = v) ∨ (k' ≠ k ∧ Stored T k' v') := by
  have hlt := lt_length_of_key hj
  have hkey : ∀ i, (bucketAt (T.set j ⟨some k, v⟩) i).key = (bucketAt T i).key := by
    intro i
    rw [bucketAt_set hlt]
    split_ifs with hij
    · rw [hij, hj]
    · rfl
  refine ⟨⟨fun hi => h.window ((hkey _).symm.trans hi),
    fun hi hi' => h.unique ((hkey _).symm.trans hi) ((hkey _).symm.trans hi')⟩,
    fun k' v' => ⟨?_, ?_⟩⟩
  · rintro ⟨i, hi, rfl⟩
    have hi' := (hkey i).symm.trans hi
    rw [bucketAt_set hlt] at hi ⊢
    split_ifs at hi ⊢ with hij
    · exact Or.inl ⟨(Option.some.inj hi).symm, rfl⟩
    · refine Or.inr ⟨?_, i, hi, rfl⟩
      rintro rfl
      exact hij (h.unique hi' hj)
  · rintro (⟨rfl, rfl⟩ | ⟨hne, i, hi, rfl⟩)
    · exact ⟨j, by rw [hkey]; exact hj, by rw [bucketAt_set hlt, if_pos rfl]⟩
    · have hij : i ≠ j := by
        rintro rfl
        exact hne (Option.some.inj (hi.symm.trans hj))
      exact ⟨i, by rw [hkey]; exact hi, by rw [bucketAt_set hlt, if_neg hij]⟩

/-- **An emptied bucket.** -/
theorem Placed.clear (h : Placed w T) (hj : (bucketAt T j).key = some k) (v : V) :
    Placed w (T.set j ⟨none, v⟩) ∧
      ∀ k' v', Stored (T.set j ⟨none, v⟩) k' v' ↔ k' ≠ k ∧ Stored T k' v' := by
  have hlt := lt_length_of_key hj
  have hkey : ∀ {i k'}, (bucketAt (T.set j ⟨none, v⟩) i).key = some k' →
      i ≠ j ∧ (bucketAt T i).key = some k' := by
    intro i k' hi
    rw [bucketAt_set hlt] at hi
    split_ifs at hi with hij
    exact ⟨hij, hi⟩
  refine ⟨⟨fun hi => h.window (hkey hi).2, fun hi hi' => h.unique (hkey hi).2 (hkey hi').2⟩,
    fun k' v' => ⟨?_, ?_⟩⟩
  · rintro ⟨i, hi, rfl⟩
    obtain ⟨hij, hi'⟩ := hkey hi
    refine ⟨?_, i, hi', by rw [bucketAt_set hlt, if_neg hij]⟩
    rintro rfl
    exact hij (h.unique hi' hj)
  · rintro ⟨hne, i, hi, rfl⟩
    have hij : i ≠ j := by
      rintro rfl
      exact hne (Option.some.inj (hi.symm.trans hj))
    exact ⟨i, by rw [bucketAt_set hlt, if_neg hij]; exact hi, by rw [bucketAt_set hlt, if_neg hij]⟩

end Edits

/-! ### The map of a table -/

section Maps
variable [DecidableEq K] {w : K → List ℕ} {T T' : List (Bucket K V)}
  {M : Finmap fun _ : K => V} {k : K} {v : V}

/-- The table holds exactly the entries of the map. -/
def Represents (T : List (Bucket K V)) (M : Finmap fun _ : K => V) : Prop :=
  ∀ k v, M.lookup k = some v ↔ Stored T k v

theorem Represents.notMem_iff (h : Represents T M) : k ∉ M ↔ ∀ v, ¬ Stored T k v := by
  rw [Finmap.mem_iff]
  exact ⟨fun hn v hs => hn ⟨v, (h k v).mpr hs⟩, fun hn ⟨v, hs⟩ => hn v ((h k v).mp hs)⟩

theorem Represents.insert (h : Represents T M)
    (hT : ∀ k' v', Stored T' k' v' ↔ (k' = k ∧ v' = v) ∨ (k' ≠ k ∧ Stored T k' v')) :
    Represents T' (M.insert k v) := by
  intro k' v'
  rw [hT]
  rcases eq_or_ne k' k with rfl | hne
  · rw [Finmap.lookup_insert]
    simp [eq_comm]
  · rw [Finmap.lookup_insert_of_ne _ hne, h]
    simp [hne]

theorem Represents.erase (h : Represents T M)
    (hT : ∀ k' v', Stored T' k' v' ↔ k' ≠ k ∧ Stored T k' v') : Represents T' (M.erase k) := by
  intro k' v'
  rw [hT]
  rcases eq_or_ne k' k with rfl | hne
  · rw [Finmap.lookup_erase]
    simp
  · rw [Finmap.lookup_erase_ne hne, h]
    simp [hne]

end Maps

end Optics.Lib.Probing
