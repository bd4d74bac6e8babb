import Mathlib.Data.List.Perm.Subperm
import Mathlib.Data.List.Nodup
import Mathlib.Data.List.Range
import Mathlib.Data.Nat.ModEq

/-! # Rings

An array of `n` slots that is written round and round. It holds the latest `n` of the elements that
were put into it (`Holds.push`), each in one slot (`Holds.slots`). -/

namespace Optics.Lib.Rings

variable {α : Type} {n pos : ℕ} {zero : α} {data : ℕ → α} {l : List α}

/-- The elements `l`, the latest first, as far as there is room, and `zero` in the other slots; the
next one goes to slot `pos % n`. -/
def Holds (n : ℕ) (zero : α) (data : ℕ → α) (pos : ℕ) (l : List α) : Prop :=
  ∀ k < n, data ((pos + (n - 1 - k)) % n) = l.getD k zero

theorem Holds.congr {pos' : ℕ} (h : Holds n zero data pos l) (hpos : pos' % n = pos % n) :
    Holds n zero data pos' l := by
  intro k hk
  have hslot : (pos' + (n - 1 - k)) % n = (pos + (n - 1 - k)) % n := Nat.ModEq.add_right _ hpos
  rw [hslot]
  exact h k hk

theorem holds_nil (n : ℕ) (zero : α) (pos : ℕ) : Holds n zero (fun _ => zero) pos [] := by
  intro k _
  simp

theorem slot_ne {d e : ℕ} (hd : d < n) (he : e < n) (hne : d ≠ e) :
    (pos + d) % n ≠ (pos + e) % n := by
  intro hc
  have hmod : d % n = e % n := Nat.ModEq.add_left_cancel' pos hc
  rw [Nat.mod_eq_of_lt hd, Nat.mod_eq_of_lt he] at hmod
  exact hne hmod

/-- **An element is put into the ring**, over the oldest one. -/
theorem Holds.push (h : Holds n zero data pos l) (a : α) :
    Holds n zero (fun i => if i = pos % n then a else data i) (pos + 1) (a :: l) := by
  intro k hk
  dsimp only
  rcases k with _ | k
  · have hslot : (pos + 1 + (n - 1 - 0)) % n = pos % n := by
      rw [show pos + 1 + (n - 1 - 0) = pos + n by omega, Nat.add_mod_right]
    rw [if_pos hslot, List.getD_cons_zero]
  · have hslot : pos + 1 + (n - 1 - (k + 1)) = pos + (n - 1 - k) := by omega
    have hne : (pos + (n - 1 - k)) % n ≠ (pos + 0) % n :=
      slot_ne (by omega) (by omega) (by omega)
    rw [Nat.add_zero] at hne
    rw [hslot, if_neg hne, h k (by omega), List.getD_cons_succ]

/-- **The slots**, one after the other, are the latest elements in some order. -/
theorem Holds.slots (h : Holds n zero data pos l) :
    ((List.range n).map data).Perm ((List.range n).map fun k => l.getD k zero) := by
  have hindex : ((List.range n).map fun k => (pos + (n - 1 - k)) % n).Perm (List.range n) := by
    refine (List.subperm_of_subset ?_ ?_).perm_of_length_le (by simp)
    · refine List.Nodup.map_on (fun a ha b hb hab => ?_) List.nodup_range
      rw [List.mem_range] at ha hb
      by_contra hne
      exact slot_ne (by omega) (by omega) (by omega) hab
    · intro i hi
      obtain ⟨k, hk, rfl⟩ := List.mem_map.mp hi
      rw [List.mem_range] at hk ⊢
      exact Nat.mod_lt _ (by omega)
  have hmap := hindex.map data
  rw [List.map_map] at hmap
  refine hmap.symm.trans (List.Perm.of_eq (List.map_congr_left fun k hk => ?_))
  exact h k (List.mem_range.mp hk)

end Optics.Lib.Rings
