import Mathlib.Algebra.BigOperators.Ring.Finset
import Mathlib.Algebra.Order.Field.Rat
import Mathlib.Data.Rat.Cast.Order
import Mathlib.Tactic.FieldSimp
import Mathlib.Tactic.Ring
import Mathlib.Tactic.Positivity
import Mathlib.Tactic.Linarith

/-! # Independent draws, and sampling into a reservoir

The chance of an event of independent draws, each of them uniform in the numbers below a bound; and a
reservoir into which values are put one after the other, each in the place of a number that is drawn
for it, if there is such a place. The bounds of the numbers are consecutive from `k` on.

* `chance_kept`: a value of the reservoir stays there with chance `(k - 1) / (k + m - 1)`, where `m`
  is the number of values to come;
* `chance_added`: a value that comes is there in the end with chance `K / (k + m - 1)`, where `K` is
  the size of the reservoir. -/

namespace Optics.Lib.Sampling

/-! ### Draws -/

/-- The mean of a function of independent draws, one below each of the bounds. -/
def mean : List ℕ → (List ℕ → ℚ) → ℚ
  | [], f => f []
  | k :: ks, f => (∑ x ∈ Finset.range k, mean ks fun xs => f (x :: xs)) / k

/-- The chance of an event. -/
def chance (ks : List ℕ) (E : List ℕ → Prop) [DecidablePred E] : ℚ :=
  mean ks fun xs => if E xs then 1 else 0

theorem mean_zero : ∀ ks : List ℕ, (mean ks fun _ => 0) = 0
  | [] => rfl
  | k :: ks => by
    rw [mean, Finset.sum_eq_zero fun _ _ => mean_zero ks, zero_div]

theorem mean_one : ∀ {ks : List ℕ}, 0 ∉ ks → (mean ks fun _ => 1) = 1
  | [], _ => rfl
  | k :: ks, h => by
    have hk : (k : ℚ) ≠ 0 := Nat.cast_ne_zero.mpr fun h0 => h (h0 ▸ List.mem_cons_self)
    rw [mean, Finset.sum_congr rfl fun _ _ => mean_one fun h0 => h (List.mem_cons_of_mem _ h0),
      Finset.sum_const, Finset.card_range, nsmul_eq_mul, mul_one, div_self hk]

theorem mean_of_mem : ∀ {ks : List ℕ} (f : List ℕ → ℚ), 0 ∈ ks → mean ks f = 0
  | k :: ks, f, h => by
    rcases List.mem_cons.mp h with rfl | h
    · rw [mean, Finset.range_zero, Finset.sum_empty, zero_div]
    · rw [mean, Finset.sum_eq_zero fun _ _ => mean_of_mem _ h, zero_div]

section Chance
variable {E : List ℕ → Prop} [DecidablePred E] {ks : List ℕ} {k : ℕ}

theorem chance_cons : chance (k :: ks) E =
    (∑ x ∈ Finset.range k, chance ks fun xs => E (x :: xs)) / k := rfl

theorem chance_congr {E' : List ℕ → Prop} [DecidablePred E'] (h : ∀ xs, E xs ↔ E' xs) :
    chance ks E = chance ks E' :=
  congrArg (mean ks) (funext fun xs => if_congr (h xs) rfl rfl)

theorem chance_never (h : ∀ xs, ¬ E xs) : chance ks E = 0 := by
  have hf : (fun xs => if E xs then (1 : ℚ) else 0) = fun _ => 0 := funext fun xs => if_neg (h xs)
  rw [chance, hf, mean_zero]

/-- The first draw is among `n` of the `k` numbers, and the chance is `c` then and zero otherwise. -/
theorem chance_cons_of_card {p : ℕ → Prop} [DecidablePred p] {n : ℕ} {c : ℚ}
    (hn : ((Finset.range k).filter p).card = n)
    (hpos : ∀ x, p x → chance ks (fun xs => E (x :: xs)) = c)
    (hneg : ∀ x, ¬ p x → chance ks (fun xs => E (x :: xs)) = 0) :
    chance (k :: ks) E = n * c / k := by
  have hite : ∀ x ∈ Finset.range k,
      (chance ks fun xs => E (x :: xs)) = if p x then c else 0 := fun x _ => by
    split_ifs with hx
    · exact hpos x hx
    · exact hneg x hx
  rw [chance_cons, Finset.sum_congr rfl hite, ← Finset.sum_filter, Finset.sum_const, hn,
    nsmul_eq_mul]

theorem chance_cons_const {c : ℚ} (hk : k ≠ 0)
    (h : ∀ x, chance ks (fun xs => E (x :: xs)) = c) : chance (k :: ks) E = c := by
  rw [chance_cons_of_card (n := k) (c := c) (p := fun _ => True) (by simp) (fun x _ => h x)
    (fun x hx => absurd trivial hx)]
  exact mul_div_cancel_left₀ c (Nat.cast_ne_zero.mpr hk)

end Chance

/-! ### Reservoirs -/

section Reservoir
variable {α : Type}

/-- The values put into the reservoir, each where the number drawn for it says. -/
def putAll : List α → List α → List ℕ → List α
  | [], reservoir, _ => reservoir
  | v :: vs, reservoir, xs => putAll vs (reservoir.set (xs.headD 0) v) xs.tail

theorem length_putAll : ∀ (vs reservoir : List α) (xs : List ℕ),
    (putAll vs reservoir xs).length = reservoir.length
  | [], _, _ => rfl
  | v :: vs, reservoir, xs => by rw [putAll, length_putAll vs, List.length_set]

theorem notMem_set {a v : α} {reservoir : List α} (hv : a ≠ v) (h : a ∉ reservoir) (x : ℕ) :
    a ∉ reservoir.set x v := fun hmem =>
  (List.mem_or_eq_of_mem_set hmem).elim h hv

theorem notMem_putAll {a : α} : ∀ {vs reservoir : List α} (xs : List ℕ), a ∉ reservoir → a ∉ vs →
    a ∉ putAll vs reservoir xs
  | [], _, _, h, _ => h
  | v :: vs, reservoir, xs, h, hvs => by
    rw [List.mem_cons, not_or] at hvs
    exact notMem_putAll xs.tail (notMem_set hvs.1 h _) hvs.2

/-- The value is at one place of the reservoir. -/
def IsAt (a : α) (reservoir : List α) (p : ℕ) : Prop :=
  reservoir[p]? = some a ∧ ∀ q, reservoir[q]? = some a → q = p

theorem IsAt.mem {a : α} {reservoir : List α} {p : ℕ} (h : IsAt a reservoir p) : a ∈ reservoir :=
  List.mem_of_getElem? h.1

theorem isAt_of_nodup {a : α} {reservoir : List α} (hnodup : reservoir.Nodup) (h : a ∈ reservoir) :
    ∃ p, IsAt a reservoir p := by
  obtain ⟨p, hp⟩ := List.mem_iff_getElem?.mp h
  refine ⟨p, hp, fun q hq => ?_⟩
  obtain ⟨hq', heq⟩ := List.getElem?_eq_some_iff.mp hq
  obtain ⟨hp', hep⟩ := List.getElem?_eq_some_iff.mp hp
  exact hnodup.getElem_inj_iff.mp (heq.trans hep.symm)

theorem IsAt.set_self {a v : α} {reservoir : List α} {p : ℕ} (h : IsAt a reservoir p) (hv : a ≠ v) :
    a ∉ reservoir.set p v := by
  intro hmem
  obtain ⟨q, hq⟩ := List.mem_iff_getElem?.mp hmem
  rw [List.getElem?_set] at hq
  split_ifs at hq with hp
  · exact hv (Option.some.inj hq).symm
  · exact hp (h.2 q hq).symm

theorem IsAt.set_of_ne {a v : α} {reservoir : List α} {p x : ℕ} (h : IsAt a reservoir p)
    (hv : a ≠ v) (hx : x ≠ p) : IsAt a (reservoir.set x v) p := by
  refine ⟨by rw [List.getElem?_set_ne hx]; exact h.1, fun q hq => ?_⟩
  rw [List.getElem?_set] at hq
  split_ifs at hq with hq'
  · exact absurd (Option.some.inj hq).symm hv
  · exact h.2 q hq

theorem isAt_set {a : α} {reservoir : List α} {x : ℕ} (hx : x < reservoir.length)
    (h : a ∉ reservoir) : IsAt a (reservoir.set x a) x := by
  refine ⟨List.getElem?_set_self hx, fun q hq => ?_⟩
  by_contra hne
  rw [List.getElem?_set_ne (Ne.symm hne)] at hq
  exact h (List.mem_of_getElem? hq)

variable [DecidableEq α]

theorem card_ne {p k : ℕ} (h : p < k) : ((Finset.range k).filter (· ≠ p)).card = k - 1 := by
  rw [Finset.filter_ne', Finset.card_erase_of_mem (Finset.mem_range.mpr h), Finset.card_range]

theorem card_lt {n k : ℕ} (h : n ≤ k) : ((Finset.range k).filter (· < n)).card = n := by
  have hrange : (Finset.range k).filter (· < n) = Finset.range n := by
    ext x
    simp only [Finset.mem_filter, Finset.mem_range]
    omega
  rw [hrange, Finset.card_range]

/-- **A value of the reservoir** stays. -/
theorem chance_kept {a : α} : ∀ (vs : List α) {reservoir : List α} {k p : ℕ}, IsAt a reservoir p →
    a ∉ vs → reservoir.length ≤ k → 1 < k →
    (chance (List.range' k vs.length) fun xs => a ∈ putAll vs reservoir xs) =
      (k - 1) / (k + vs.length - 1)
  | [], reservoir, k, p, h, _, _, hk => by
    have hk' : (k : ℚ) - 1 ≠ 0 := by
      have : (1 : ℚ) < k := Nat.one_lt_cast.mpr hk
      linarith
    rw [List.length_nil, Nat.cast_zero, add_zero, div_self hk']
    exact if_pos h.mem
  | v :: vs, reservoir, k, p, h, hvs, hlen, hk => by
    rw [List.mem_cons, not_or] at hvs
    have hp : p < k := (List.getElem?_eq_some_iff.mp h.1).1.trans_le hlen
    have hpos : ∀ x, x ≠ p → (chance (List.range' (k + 1) vs.length) fun xs =>
        a ∈ putAll (v :: vs) reservoir (x :: xs)) =
          ((k + 1 : ℕ) - 1) / ((k + 1 : ℕ) + vs.length - 1) := fun x hx =>
      chance_kept vs (h.set_of_ne hvs.1 hx) hvs.2 (by rw [List.length_set]; omega) (by omega)
    have hneg : ∀ x, ¬ x ≠ p → (chance (List.range' (k + 1) vs.length) fun xs =>
        a ∈ putAll (v :: vs) reservoir (x :: xs)) = 0 := fun x hx => by
      rw [not_not] at hx
      subst hx
      exact chance_never fun xs => notMem_putAll xs (h.set_self hvs.1) hvs.2
    rw [List.length_cons, List.range'_succ, chance_cons_of_card (card_ne hp) hpos hneg,
      Nat.cast_sub hk.le]
    have hk0 : (k : ℚ) ≠ 0 := Nat.cast_ne_zero.mpr (by omega)
    push_cast
    rw [add_sub_cancel_right, add_right_comm, add_sub_cancel_right, ← add_assoc,
      add_sub_cancel_right]
    field_simp

/-- **A value that comes** is there in the end. -/
theorem chance_added {a : α} {after : List α} (hafter : a ∉ after) : ∀ (before reservoir : List α)
    {k : ℕ}, a ∉ before → a ∉ reservoir → reservoir.length ≤ k → 0 < k →
    (chance (List.range' k (before ++ a :: after).length) fun xs =>
      a ∈ putAll (before ++ a :: after) reservoir xs) =
        reservoir.length / (k + (before ++ a :: after).length - 1)
  | [], reservoir, k, _, h, hlen, hk => by
    have hpos : ∀ x, x < reservoir.length → (chance (List.range' (k + 1) after.length) fun xs =>
        a ∈ putAll (a :: after) reservoir (x :: xs)) =
          ((k + 1 : ℕ) - 1) / ((k + 1 : ℕ) + after.length - 1) := fun x hx =>
      chance_kept after (isAt_set hx h) hafter (by rw [List.length_set]; omega) (by omega)
    have hneg : ∀ x, ¬ x < reservoir.length → (chance (List.range' (k + 1) after.length) fun xs =>
        a ∈ putAll (a :: after) reservoir (x :: xs)) = 0 := fun x hx => by
      refine chance_never fun xs => notMem_putAll xs ?_ hafter
      rw [List.headD_cons, List.set_eq_of_length_le (not_lt.mp hx)]
      exact h
    rw [List.nil_append, List.length_cons, List.range'_succ,
      chance_cons_of_card (card_lt hlen) hpos hneg]
    have hk0 : (k : ℚ) ≠ 0 := Nat.cast_ne_zero.mpr hk.ne'
    push_cast
    rw [add_sub_cancel_right, add_right_comm, add_sub_cancel_right, ← add_assoc,
      add_sub_cancel_right]
    field_simp
  | v :: before, reservoir, k, hbefore, h, hlen, hk => by
    rw [List.mem_cons, not_or] at hbefore
    have hrest : ∀ x, (chance (List.range' (k + 1) (before ++ a :: after).length) fun xs =>
        a ∈ putAll (v :: (before ++ a :: after)) reservoir (x :: xs)) =
          (reservoir.set x v).length / ((k + 1 : ℕ) + (before ++ a :: after).length - 1) := fun x =>
      chance_added hafter before _ hbefore.2 (notMem_set hbefore.1 h x) (by rw [List.length_set]; omega)
        (by omega)
    simp only [List.length_set] at hrest
    rw [List.cons_append, List.length_cons, List.range'_succ, chance_cons_const hk.ne' hrest]
    push_cast
    rw [add_right_comm, add_sub_cancel_right, ← add_assoc, add_sub_cancel_right]

/-! ### Numbered values -/

variable {k m t : ℕ} {reservoir : List ℕ}

/-- A number of the reservoir stays when the next `m` numbers come. -/
theorem chance_kept_range (ht : t < k) (hnodup : reservoir.Nodup) (hmem : t ∈ reservoir)
    (hlen : reservoir.length ≤ k) (hk : 1 < k) :
    (chance (List.range' k m) fun xs => t ∈ putAll (List.range' k m) reservoir xs) =
      (k - 1) / (k + m - 1) := by
  obtain ⟨p, hp⟩ := isAt_of_nodup hnodup hmem
  have hnew : t ∉ List.range' k m := fun hnew => by
    rw [List.mem_range'_1] at hnew
    omega
  have hchance := chance_kept (List.range' k m) hp hnew hlen hk
  rwa [List.length_range'] at hchance

/-- One of the next `m` numbers is there in the end. -/
theorem chance_added_range (hkt : k ≤ t) (ht : t < k + m) (h : t ∉ reservoir)
    (hlen : reservoir.length ≤ k) (hk : 0 < k) :
    (chance (List.range' k m) fun xs => t ∈ putAll (List.range' k m) reservoir xs) =
      reservoir.length / (k + m - 1) := by
  obtain ⟨i, rfl⟩ : ∃ i, t = k + i := ⟨t - k, by omega⟩
  obtain ⟨j, rfl⟩ : ∃ j, m = i + (j + 1) := ⟨m - i - 1, by omega⟩
  have hsplit : List.range' k (i + (j + 1)) =
      List.range' k i ++ (k + i) :: List.range' (k + i + 1) j := by
    rw [← List.range'_append_1, List.range'_succ]
  have hafter : k + i ∉ List.range' (k + i + 1) j := fun hmem => by
    rw [List.mem_range'_1] at hmem
    omega
  have hbefore : k + i ∉ List.range' k i := fun hmem => by
    rw [List.mem_range'_1] at hmem
    omega
  have hchance := chance_added hafter _ reservoir hbefore h hlen hk
  rwa [← hsplit, List.length_range'] at hchance

end Reservoir

end Optics.Lib.Sampling
