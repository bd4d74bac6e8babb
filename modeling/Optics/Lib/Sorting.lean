import Mathlib.Data.List.Perm.Basic
import Mathlib.Data.List.Sort
import Mathlib.Tactic.SplitIfs

/-! # Merge sort by a comparator that may fail

A stable merge sort driven by a comparator as C has it: a number that is negative, zero or positive.
The comparator need not be consistent, and where it fails the sort fails. A transitive relation that
every answer of the comparator agrees with holds along the result (`mergeSort_pairwise`); a list on
which the comparator finds nothing to do comes back as it is (`mergeSort_eq_self`). Any sort that
promises as much is an `IsSort`. -/

namespace Optics.Lib.Sorting

variable {α ε : Type} (cmp : α → α → Except ε ℤ)

/-- Merge two lists; of two elements that compare equal the left one comes first. -/
def merge : List α → List α → Except ε (List α)
  | [], r => .ok r
  | x :: l, [] => .ok (x :: l)
  | x :: l, y :: r => do
    let c ← cmp x y
    if c ≤ 0 then do
      let o ← merge l (y :: r)
      .ok (x :: o)
    else do
      let o ← merge (x :: l) r
      .ok (y :: o)
termination_by l r => l.length + r.length

/-- Sort both halves and merge them. -/
def mergeSort : List α → Except ε (List α)
  | [] => .ok []
  | [x] => .ok [x]
  | x :: y :: l => do
    let left ← mergeSort ((x :: y :: l).take ((l.length + 3) / 2))
    let right ← mergeSort ((x :: y :: l).drop ((l.length + 3) / 2))
    merge cmp left right
termination_by l => l.length
decreasing_by
  · simp only [List.length_take, List.length_cons]
    omega
  · simp only [List.length_drop, List.length_cons]
    omega

variable {cmp}

theorem bind_eq_ok {β γ : Type} {x : Except ε β} {f : β → Except ε γ} {r : γ} :
    x >>= f = .ok r ↔ ∃ a, x = .ok a ∧ f a = .ok r := by
  cases x with
  | ok a => exact ⟨fun h => ⟨a, rfl, h⟩, fun ⟨_, h, h'⟩ => by cases h; exact h'⟩
  | error e => exact ⟨fun h => (nomatch h), fun ⟨_, h, _⟩ => (nomatch h)⟩

theorem merge_cons {x y : α} {l r o : List α} (h : merge cmp (x :: l) (y :: r) = .ok o) :
    ∃ c, cmp x y = .ok c ∧
      ((c ≤ 0 ∧ ∃ o', merge cmp l (y :: r) = .ok o' ∧ o = x :: o') ∨
        (0 < c ∧ ∃ o', merge cmp (x :: l) r = .ok o' ∧ o = y :: o')) := by
  rw [merge, bind_eq_ok] at h
  obtain ⟨c, hc, h⟩ := h
  refine ⟨c, hc, ?_⟩
  split_ifs at h with h0
  · obtain ⟨o', ho, h⟩ := bind_eq_ok.mp h
    exact .inl ⟨h0, o', ho, (Except.ok.inj h).symm⟩
  · obtain ⟨o', ho, h⟩ := bind_eq_ok.mp h
    exact .inr ⟨by omega, o', ho, (Except.ok.inj h).symm⟩

theorem mergeSort_halves {l o : List α} (hl : 2 ≤ l.length) (h : mergeSort cmp l = .ok o) :
    ∃ left right, mergeSort cmp (l.take ((l.length + 1) / 2)) = .ok left ∧
      mergeSort cmp (l.drop ((l.length + 1) / 2)) = .ok right ∧ merge cmp left right = .ok o := by
  match l, hl with
  | x :: y :: l, _ =>
    rw [mergeSort, bind_eq_ok] at h
    obtain ⟨left, hleft, h⟩ := h
    obtain ⟨right, hright, h⟩ := bind_eq_ok.mp h
    exact ⟨left, right, hleft, hright, h⟩

/-! ### The elements -/

theorem merge_perm : ∀ {l r o : List α}, merge cmp l r = .ok o → o.Perm (l ++ r)
  | [], r, o, h => by
    rw [merge] at h
    cases h
    exact List.Perm.refl _
  | x :: l, [], o, h => by
    rw [merge] at h
    cases h
    rw [List.append_nil]
  | x :: l, y :: r, o, h => by
    obtain ⟨c, -, ⟨-, o', ho, rfl⟩ | ⟨-, o', ho, rfl⟩⟩ := merge_cons h
    · exact (merge_perm ho).cons x
    · exact ((merge_perm ho).cons y).trans List.perm_middle.symm
termination_by l r => l.length + r.length

/-- **A sort permutes its input.** -/
theorem mergeSort_perm {l o : List α} (h : mergeSort cmp l = .ok o) : o.Perm l := by
  induction hn : l.length using Nat.strong_induction_on generalizing l o with
  | _ n ih =>
    match l with
    | [] =>
      rw [mergeSort] at h
      cases h
      exact List.Perm.refl _
    | [x] =>
      rw [mergeSort] at h
      cases h
      exact List.Perm.refl _
    | x :: y :: l =>
      obtain ⟨left, right, hleft, hright, hm⟩ := mergeSort_halves (by simp) h
      simp only [List.length_cons] at hn hleft hright
      have h1 := ih _ (by simp only [List.length_take, List.length_cons]; omega) hleft rfl
      have h2 := ih _ (by simp only [List.length_drop, List.length_cons]; omega) hright rfl
      have h3 := h1.append h2
      rw [List.take_append_drop] at h3
      exact (merge_perm hm).trans h3

/-! ### Where the comparator answers -/

theorem merge_ok : ∀ {l r : List α}, (∀ x ∈ l, ∀ y ∈ r, ∃ c, cmp x y = .ok c) →
    ∃ o, merge cmp l r = .ok o
  | [], r, _ => ⟨r, by rw [merge]⟩
  | x :: l, [], _ => ⟨x :: l, by rw [merge]⟩
  | x :: l, y :: r, h => by
    obtain ⟨c, hc⟩ := h x List.mem_cons_self y List.mem_cons_self
    rw [merge, hc]
    by_cases h0 : c ≤ 0
    · obtain ⟨o, ho⟩ := merge_ok (l := l) (r := y :: r) fun a ha => h a (List.mem_cons_of_mem _ ha)
      exact ⟨x :: o, by simp only [bind, Except.bind, if_pos h0, ho]⟩
    · obtain ⟨o, ho⟩ := merge_ok (l := x :: l) (r := r) fun a ha b hb =>
        h a ha b (List.mem_cons_of_mem _ hb)
      exact ⟨y :: o, by simp only [bind, Except.bind, if_neg h0, ho]⟩
termination_by l r => l.length + r.length

/-- **A sort ends** if the comparator answers on its input. -/
theorem mergeSort_ok {l : List α} (h : ∀ x ∈ l, ∀ y ∈ l, ∃ c, cmp x y = .ok c) :
    ∃ o, mergeSort cmp l = .ok o := by
  induction hn : l.length using Nat.strong_induction_on generalizing l with
  | _ n ih =>
    match l with
    | [] => exact ⟨[], by rw [mergeSort]⟩
    | [x] => exact ⟨[x], by rw [mergeSort]⟩
    | x :: y :: l =>
      simp only [List.length_cons] at hn
      obtain ⟨left, hleft⟩ := ih _
        (by simp only [List.length_take, List.length_cons]; omega)
        (l := (x :: y :: l).take ((l.length + 3) / 2))
        (fun a ha b hb => h a (List.mem_of_mem_take ha) b (List.mem_of_mem_take hb)) rfl
      obtain ⟨right, hright⟩ := ih _
        (by simp only [List.length_drop, List.length_cons]; omega)
        (l := (x :: y :: l).drop ((l.length + 3) / 2))
        (fun a ha b hb => h a (List.mem_of_mem_drop ha) b (List.mem_of_mem_drop hb)) rfl
      have hm : ∃ o, merge cmp left right = .ok o := merge_ok fun a ha b hb =>
        h a (List.mem_of_mem_take ((mergeSort_perm hleft).mem_iff.mp ha))
          b (List.mem_of_mem_drop ((mergeSort_perm hright).mem_iff.mp hb))
      obtain ⟨o, ho⟩ := hm
      exact ⟨o, by rw [mergeSort, hleft]; simp only [bind, Except.bind, hright, ho]⟩

/-- The first two elements are compared. -/
theorem mergeSort_error {x y : α} {e : ε} (h : cmp x y = .error e) :
    ∀ l : List α, mergeSort cmp (x :: y :: l) = .error e := by
  intro l
  induction hn : l.length using Nat.strong_induction_on generalizing l with
  | _ n ih =>
    match l with
    | [] =>
      rw [mergeSort]
      simp [mergeSort, merge, h, bind, Except.bind]
    | z :: l =>
      rw [mergeSort]
      have ht : (x :: y :: z :: l).take (((z :: l).length + 3) / 2) =
          x :: y :: (z :: l).take (l.length / 2) := by
        rw [List.length_cons, show (l.length + 1 + 3) / 2 = l.length / 2 + 2 by omega]
        rfl
      rw [ht, ih _ (by simp only [List.length_take, List.length_cons] at hn ⊢; omega) _ rfl]
      rfl

/-! ### The order of the result -/

/-- Every answer of the comparator about elements of a list agrees with a relation. -/
def Agrees (cmp : α → α → Except ε ℤ) (R : α → α → Prop) (l : List α) : Prop :=
  ∀ x ∈ l, ∀ y ∈ l, ∀ c, cmp x y = .ok c → (c ≤ 0 → R x y) ∧ (0 < c → R y x)

theorem Agrees.mono {R : α → α → Prop} {l l' : List α} (h : Agrees cmp R l) (hl : ∀ x ∈ l', x ∈ l) :
    Agrees cmp R l' := fun x hx y hy => h x (hl x hx) y (hl y hy)

theorem merge_pairwise {R : α → α → Prop} (htrans : ∀ x y z, R x y → R y z → R x z) :
    ∀ {l r o : List α}, Agrees cmp R (l ++ r) → merge cmp l r = .ok o →
      l.Pairwise R → r.Pairwise R → o.Pairwise R
  | [], r, o, _, h, _, hr => by
    rw [merge] at h
    cases h
    exact hr
  | x :: l, [], o, _, h, hl, _ => by
    rw [merge] at h
    cases h
    exact hl
  | x :: l, y :: r, o, ha, h, hl, hr => by
    obtain ⟨c, hc, ho⟩ := merge_cons h
    obtain ⟨hle, hlt⟩ := ha x (by simp) y (by simp) c hc
    have hlx := List.pairwise_cons.mp hl
    have hry := List.pairwise_cons.mp hr
    rcases ho with ⟨h0, o', ho, rfl⟩ | ⟨h0, o', ho, rfl⟩
    · have hxy := hle h0
      refine List.pairwise_cons.mpr ⟨fun z hz => ?_, merge_pairwise htrans
        (ha.mono fun a h' => List.mem_cons_of_mem _ h') ho hlx.2 hr⟩
      rcases List.mem_append.mp ((merge_perm ho).mem_iff.mp hz) with h' | h'
      · exact hlx.1 z h'
      · rcases List.mem_cons.mp h' with rfl | h'
        · exact hxy
        · exact htrans x y z hxy (hry.1 z h')
    · have hyx := hlt h0
      refine List.pairwise_cons.mpr ⟨fun z hz => ?_, merge_pairwise htrans
        (ha.mono fun a h' => by simp only [List.mem_append, List.mem_cons] at h' ⊢; tauto)
        ho hl hry.2⟩
      rcases List.mem_append.mp ((merge_perm ho).mem_iff.mp hz) with h' | h'
      · rcases List.mem_cons.mp h' with rfl | h'
        · exact hyx
        · exact htrans y x z hyx (hlx.1 z h')
      · exact hry.1 z h'
termination_by l r => l.length + r.length

/-- **The result is in order** for every transitive relation the comparator agrees with. -/
theorem mergeSort_pairwise {R : α → α → Prop} (htrans : ∀ x y z, R x y → R y z → R x z)
    {l o : List α} (ha : Agrees cmp R l) (h : mergeSort cmp l = .ok o) : o.Pairwise R := by
  induction hn : l.length using Nat.strong_induction_on generalizing l o with
  | _ n ih =>
    match l with
    | [] =>
      rw [mergeSort] at h
      cases h
      exact List.Pairwise.nil
    | [x] =>
      rw [mergeSort] at h
      cases h
      exact List.pairwise_singleton R x
    | x :: y :: l =>
      obtain ⟨left, right, hleft, hright, hm⟩ := mergeSort_halves (by simp) h
      simp only [List.length_cons] at hn hleft hright
      have h1 := ih _ (by simp only [List.length_take, List.length_cons]; omega)
        (ha.mono fun a => List.mem_of_mem_take) hleft rfl
      have h2 := ih _ (by simp only [List.length_drop, List.length_cons]; omega)
        (ha.mono fun a => List.mem_of_mem_drop) hright rfl
      refine merge_pairwise htrans (ha.mono fun a h' => ?_) hm h1 h2
      rcases List.mem_append.mp h' with h' | h'
      · exact List.mem_of_mem_take ((mergeSort_perm hleft).mem_iff.mp h')
      · exact List.mem_of_mem_drop ((mergeSort_perm hright).mem_iff.mp h')

theorem merge_eq_append : ∀ {l r : List α},
    (∀ x ∈ l, ∀ y ∈ r, ∃ c ≤ 0, cmp x y = .ok c) → merge cmp l r = .ok (l ++ r)
  | [], r, _ => by rw [merge, List.nil_append]
  | x :: l, [], _ => by rw [merge, List.append_nil]
  | x :: l, y :: r, h => by
    obtain ⟨c, h0, hc⟩ := h x List.mem_cons_self y List.mem_cons_self
    have ih : merge cmp l (y :: r) = .ok (l ++ y :: r) :=
      merge_eq_append fun a ha => h a (List.mem_cons_of_mem _ ha)
    rw [merge, hc]
    simp only [bind, Except.bind, if_pos h0, ih, List.cons_append]

/-- **Nothing moves** in a list in which no element compares greater than a later one. -/
theorem mergeSort_eq_self {l : List α} (h : l.Pairwise fun x y => ∃ c ≤ 0, cmp x y = .ok c) :
    mergeSort cmp l = .ok l := by
  induction hn : l.length using Nat.strong_induction_on generalizing l with
  | _ n ih =>
    match l with
    | [] => rw [mergeSort]
    | [x] => rw [mergeSort]
    | x :: y :: l =>
      simp only [List.length_cons] at hn
      rw [← List.take_append_drop ((l.length + 3) / 2) (x :: y :: l)] at h
      obtain ⟨hleft, hright, hcross⟩ := List.pairwise_append.mp h
      rw [mergeSort, ih _ (by simp only [List.length_take, List.length_cons]; omega) hleft rfl]
      simp only [bind, Except.bind]
      rw [ih _ (by simp only [List.length_drop, List.length_cons]; omega) hright rfl]
      simp only
      rw [merge_eq_append hcross, List.take_append_drop]

/-! ### Any sort -/

/-- What a sort by a comparator promises. -/
structure IsSort (cmp : α → α → Except ε ℤ) (sort : List α → Except ε (List α)) : Prop where
  /-- it ends if the comparator answers -/
  returns : ∀ {l}, (∀ x ∈ l, ∀ y ∈ l, ∃ c, cmp x y = .ok c) → ∃ o, sort l = .ok o
  perm : ∀ {l o}, sort l = .ok o → o.Perm l
  /-- it puts in order what the answers agree with -/
  pairwise : ∀ {R : α → α → Prop} {l o}, (∀ x y z, R x y → R y z → R x z) → Agrees cmp R l →
    sort l = .ok o → o.Pairwise R
  /-- it is stable -/
  unmoved : ∀ {l}, (l.Pairwise fun x y => ∃ c ≤ 0, cmp x y = .ok c) → sort l = .ok l

theorem isSort_mergeSort : IsSort cmp (mergeSort cmp) :=
  ⟨mergeSort_ok, mergeSort_perm, fun htrans => mergeSort_pairwise htrans, mergeSort_eq_self⟩

end Optics.Lib.Sorting
