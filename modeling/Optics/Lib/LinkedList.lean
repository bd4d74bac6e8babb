import Mathlib.Data.List.Nodup
import Mathlib.Algebra.Group.Defs
import Mathlib.Tactic.Use
import Mathlib.Tactic.ByContra

/-! # Linked lists threaded through a memory

`Seg next a l z` says that following `next` from `a` visits exactly the nodes `l` and arrives at
`z`; `Chain next a l` is a segment of non-null nodes that ends in null, and `DChain next prev a l`
is a chain whose nodes also know their predecessor.

* A chain is determined by its head (`Chain.unique`), has no repeated node (`Chain.nodup`), and
  reads the links of its own nodes only (`Seg.congr`).
* `Seg.append` glues segments, `Seg.split` cuts them; `DChain.push` and `DChain.remove` are the two
  edits of a doubly linked list. -/

namespace Optics.Lib.LinkedList

variable {α : Type*}

/-- Following `next` from `a` visits the nodes `l` and arrives at `z`. -/
def Seg (next : α → α) : α → List α → α → Prop
  | a, [], z => a = z
  | a, b :: l, z => a = b ∧ Seg next (next b) l z

theorem Seg.congr {f g : α → α} : ∀ {l : List α} {a z : α}, Seg f a l z →
    (∀ n ∈ l, g n = f n) → Seg g a l z
  | [], _, _, h, _ => h
  | b :: l, a, z, h, hfg => by
    refine ⟨h.1, ?_⟩
    rw [hfg b (by simp)]
    exact h.2.congr fun n hn => hfg n (by simp [hn])

theorem Seg.append {f : α → α} : ∀ {l l' : List α} {a b z : α}, Seg f a l b → Seg f b l' z →
    Seg f a (l ++ l') z
  | [], _, _, _, _, h, h' => by rw [show _ = _ from h]; exact h'
  | _ :: _, _, _, _, _, h, h' => ⟨h.1, Seg.append h.2 h'⟩

theorem Seg.split {f : α → α} : ∀ {l l' : List α} {a x z : α}, Seg f a (l ++ x :: l') z →
    Seg f a l x ∧ Seg f (f x) l' z
  | [], _, _, _, _, h => ⟨h.1, h.2⟩
  | _ :: _, _, _, _, _, h => by
    obtain ⟨h1, h2⟩ := Seg.split h.2
    exact ⟨⟨h.1, h1⟩, h2⟩

variable [Zero α]

/-- Following `next` from `a` visits the non-null nodes `l` and ends in null. -/
def Chain (next : α → α) (a : α) (l : List α) : Prop := Seg next a l 0 ∧ (0 : α) ∉ l

theorem chain_nil {f : α → α} {a : α} : Chain f a [] ↔ a = 0 := by
  simp [Chain, Seg]

theorem chain_cons {f : α → α} {a b : α} {l : List α} :
    Chain f a (b :: l) ↔ a = b ∧ b ≠ 0 ∧ Chain f (f b) l := by
  simp only [Chain, Seg, List.mem_cons, not_or]
  constructor
  · rintro ⟨⟨h1, h2⟩, h3, h4⟩; exact ⟨h1, Ne.symm h3, h2, h4⟩
  · rintro ⟨h1, h2, h3, h4⟩; exact ⟨⟨h1, h3⟩, Ne.symm h2, h4⟩

theorem Chain.congr {f g : α → α} {a : α} {l : List α} (h : Chain f a l)
    (hfg : ∀ n ∈ l, g n = f n) : Chain g a l := ⟨h.1.congr hfg, h.2⟩

theorem Chain.eq_nil_iff {f : α → α} {a : α} {l : List α} (h : Chain f a l) : l = [] ↔ a = 0 := by
  cases l with
  | nil => exact ⟨fun _ => chain_nil.mp h, fun _ => rfl⟩
  | cons b l =>
    obtain ⟨rfl, hb, -⟩ := chain_cons.mp h
    simp [hb]

/-- A non-null head is the first node, and the rest is the chain from its link. -/
theorem Chain.uncons {f : α → α} {a : α} {l : List α} (h : Chain f a l) (ha : a ≠ 0) :
    ∃ l', l = a :: l' ∧ Chain f (f a) l' := by
  cases l with
  | nil => exact absurd (chain_nil.mp h) ha
  | cons b l =>
    obtain ⟨rfl, -, h'⟩ := chain_cons.mp h
    exact ⟨l, rfl, h'⟩

/-- **A chain is determined by its head.** -/
theorem Chain.unique {f : α → α} : ∀ {l l' : List α} {a : α}, Chain f a l → Chain f a l' → l = l'
  | [], l', a, h, h' => by
    rw [chain_nil] at h
    exact (h'.eq_nil_iff.mpr h).symm
  | b :: l, l', a, h, h' => by
    obtain ⟨rfl, hb, hl⟩ := chain_cons.mp h
    obtain ⟨l'', rfl, hl''⟩ := h'.uncons hb
    rw [Chain.unique hl hl'']

theorem Chain.suffix {f : α → α} {a x : α} {l l' : List α} (h : Chain f a (l ++ x :: l')) :
    Chain f x (x :: l') := by
  obtain ⟨h1, h2⟩ := h
  rw [List.mem_append, not_or] at h2
  exact ⟨⟨rfl, h1.split.2⟩, h2.2⟩

/-- **A chain that ends has no cycle.** -/
theorem Chain.nodup {f : α → α} : ∀ {l : List α} {a : α}, Chain f a l → l.Nodup
  | [], _, _ => List.nodup_nil
  | b :: l, a, h => by
    obtain ⟨rfl, hb, hl⟩ := chain_cons.mp h
    refine List.nodup_cons.mpr ⟨fun hmem => ?_, hl.nodup⟩
    -- a second visit of the head would start the same chain again, some nodes shorter
    obtain ⟨l1, l2, rfl⟩ := List.append_of_mem hmem
    have hlen := congrArg List.length (h.unique (Chain.suffix hl))
    simp only [List.length_cons, List.length_append] at hlen
    omega

/-- A node of a chain does not link to itself. -/
theorem Chain.next_ne {f : α → α} {a x : α} {l : List α} (h : Chain f a l) (hx : x ∈ l) : f x ≠ x := by
  intro hc
  obtain ⟨l₁, l₂, rfl⟩ := List.append_of_mem hx
  have hnd := (List.nodup_cons.mp h.suffix.nodup).1
  obtain ⟨-, hx0, hrest⟩ := chain_cons.mp h.suffix
  rw [hc] at hrest
  obtain ⟨l, rfl, -⟩ := hrest.uncons hx0
  exact hnd List.mem_cons_self

/-- **Skipping a node.** When a node of a chain comes to link to its successor's successor, the chain
loses the successor. -/
theorem Chain.skip {f f' : α → α} {p : α} : ∀ {l l' : List α} {a : α},
    Chain f a (l ++ p :: f p :: l') → (∀ y ∈ l ++ p :: f p :: l', y ≠ p → f' y = f y) →
    f' p = f (f p) → Chain f' a (l ++ p :: l')
  | [], l', a, h, hf, hp => by
    have hnd := h.nodup
    obtain ⟨h1, h2, h3⟩ := chain_cons.mp h
    obtain ⟨-, -, h4⟩ := chain_cons.mp h3
    refine chain_cons.mpr ⟨h1, h2, ?_⟩
    rw [hp]
    refine h4.congr fun y hy => hf y (by simp [hy]) ?_
    rintro rfl
    exact (List.nodup_cons.mp hnd).1 (List.mem_cons_of_mem _ hy)
  | b :: l, l', a, h, hf, hp => by
    have hnd := h.nodup
    obtain ⟨h1, h2, h3⟩ := chain_cons.mp h
    have hb : b ≠ p := by
      rintro rfl
      exact (List.nodup_cons.mp hnd).1 (by simp)
    refine chain_cons.mpr ⟨h1, h2, ?_⟩
    rw [hf b (by simp) hb]
    exact h3.skip (fun y hy => hf y (List.mem_cons_of_mem _ hy)) hp

/-! ### Doubly linked lists -/

/-- A chain from `a` whose nodes know their predecessor; the one before the first is `p`. -/
def DSeg (next prev : α → α) : α → α → List α → Prop
  | _, a, [] => a = 0
  | p, a, b :: l => a = b ∧ b ≠ 0 ∧ prev b = p ∧ DSeg next prev b (next b) l

/-- A doubly linked list with head `a`: the head has no predecessor. -/
def DChain (next prev : α → α) (a : α) (l : List α) : Prop := DSeg next prev 0 a l

theorem DSeg.chain {f g : α → α} : ∀ {l : List α} {p a : α}, DSeg f g p a l → Chain f a l
  | [], _, _, h => chain_nil.mpr h
  | _ :: _, _, _, h => chain_cons.mpr ⟨h.1, h.2.1, h.2.2.2.chain⟩

theorem DChain.chain {f g : α → α} {a : α} {l : List α} (h : DChain f g a l) : Chain f a l :=
  DSeg.chain h

theorem DSeg.congr {f g f' g' : α → α} : ∀ {l : List α} {p a : α}, DSeg f g p a l →
    (∀ n ∈ l, f' n = f n) → (∀ n ∈ l, g' n = g n) → DSeg f' g' p a l
  | [], _, _, h, _, _ => h
  | b :: l, p, a, ⟨h1, h2, h3, h4⟩, hf, hg => by
    refine ⟨h1, h2, (hg b (by simp)).trans h3, ?_⟩
    rw [hf b (by simp)]
    exact h4.congr (fun n hn => hf n (by simp [hn])) fun n hn => hg n (by simp [hn])

theorem DChain.congr {f g f' g' : α → α} {a : α} {l : List α} (h : DChain f g a l)
    (hf : ∀ n ∈ l, f' n = f n) (hg : ∀ n ∈ l, g' n = g n) : DChain f' g' a l :=
  DSeg.congr h hf hg

theorem DSeg.next_mem {f g : α → α} : ∀ {l : List α} {p a n : α}, DSeg f g p a l → n ∈ l →
    f n = 0 ∨ f n ∈ l
  | b :: l, p, a, n, ⟨_, _, _, h4⟩, hn => by
    rcases List.mem_cons.mp hn with rfl | hn
    · cases l with
      | nil => exact Or.inl h4
      | cons c l => exact Or.inr (by rw [h4.1]; simp)
    · rcases h4.next_mem hn with h | h
      · exact Or.inl h
      · exact Or.inr (by simp [h])

/-- A node's predecessor is the start's, for the first node, or a node of the list that links
to it. -/
theorem DSeg.prev_mem {f g : α → α} : ∀ {l : List α} {p a n : α}, DSeg f g p a l → n ∈ l →
    (n = a ∧ g n = p) ∨ (g n ∈ l ∧ f (g n) = n)
  | b :: l, p, a, n, ⟨h1, _, h3, h4⟩, hn => by
    rcases List.mem_cons.mp hn with rfl | hn
    · exact Or.inl ⟨h1.symm, h3⟩
    · right
      rcases h4.prev_mem hn with ⟨rfl, h⟩ | ⟨h, h'⟩
      · rw [h]; simp
      · exact ⟨by simp [h], h'⟩

theorem DChain.prev_eq_zero {f g : α → α} {a n : α} {l : List α} (h : DChain f g a l) (hn : n ∈ l) :
    g n = 0 ↔ a = n := by
  constructor
  · intro h0
    rcases DSeg.prev_mem h hn with ⟨h1, -⟩ | ⟨h1, -⟩
    · exact h1.symm
    · exact absurd (h0 ▸ h1) h.chain.2
  · rintro rfl
    obtain ⟨l, rfl, -⟩ := h.chain.uncons fun hc => h.chain.2 (hc ▸ hn)
    exact h.2.2.1

theorem DSeg.prev_next {f g : α → α} : ∀ {l : List α} {p a n : α}, DSeg f g p a l → n ∈ l →
    f n ≠ 0 → g (f n) = n
  | b :: l, p, a, n, ⟨_, _, _, h4⟩, hn, hf => by
    rcases List.mem_cons.mp hn with rfl | hn
    · cases l with
      | nil => exact absurd h4 hf
      | cons c l => obtain ⟨h5, -, h6, -⟩ := h4; rw [h5]; exact h6
    · exact h4.prev_next hn hf

theorem DSeg.reparent {f g f' g' : α → α} {p q a : α} {l : List α} (h : DSeg f g p a l)
    (hf : ∀ n ∈ l, f' n = f n) (hg : ∀ n ∈ l, n ≠ a → g' n = g n) (ha : a ∈ l → g' a = q) :
    DSeg f' g' q a l := by
  cases l with
  | nil => exact h
  | cons b l =>
    have hnd := h.chain.nodup
    obtain ⟨rfl, h2, h3, h4⟩ := h
    refine ⟨rfl, h2, ha (by simp), ?_⟩
    rw [hf a (by simp)]
    refine h4.congr (fun n hn => hf n (by simp [hn])) fun n hn => hg n (by simp [hn]) ?_
    rintro rfl
    exact (List.nodup_cons.mp hnd).1 hn

/-- **Pushing a node.** The new head links to the old one, which learns its predecessor. -/
theorem DChain.push {f g f' g' : α → α} {a x : α} {l : List α} (h : DChain f g a l) (hx : x ≠ 0)
    (hfx : f' x = a) (hgx : g' x = 0) (hf : ∀ n ∈ l, f' n = f n)
    (hg : ∀ n ∈ l, n ≠ a → g' n = g n) (ha : a ∈ l → g' a = x) : DChain f' g' x (x :: l) := by
  refine ⟨rfl, hx, hgx, ?_⟩
  rw [hfx]
  exact DSeg.reparent h hf hg ha

/-- **Removing a node.** Links to it become links to its successor, and its successor's predecessor
becomes its own; `a'` is the new head. -/
theorem DSeg.remove {f g f' g' : α → α} {x : α} : ∀ {l l' : List α} {p a a' : α},
    DSeg f g p a (l ++ x :: l') → p ≠ x →
    (∀ n ∈ l ++ l', (f n = x → f' n = f x) ∧ (f n ≠ x → f' n = f n)) →
    (∀ n ∈ l ++ l', (g n = x → g' n = g x) ∧ (g n ≠ x → g' n = g n)) →
    (a = x → a' = f x) → (a ≠ x → a' = a) → DSeg f' g' p a' (l ++ l')
  | [], l', p, a, a', h, _, hf, hg, ha, _ => by
    have hnd := h.chain.nodup
    obtain ⟨rfl, hx, rfl, h4⟩ := h
    have hxl : a ∉ l' := (List.nodup_cons.mp hnd).1
    rw [ha rfl]
    refine DSeg.reparent h4 (fun n hn => (hf n hn).2 ?_) (fun n hn hne => (hg n hn).2 ?_)
      fun hmem => (hg _ hmem).1 ?_
    · rcases h4.next_mem hn with h5 | h5
      · exact fun h6 => hx (h6.symm.trans h5)
      · exact fun h6 => hxl (h6 ▸ h5)
    · rcases h4.prev_mem hn with ⟨h5, -⟩ | ⟨h5, -⟩
      · exact absurd h5 hne
      · exact fun h6 => hxl (h6 ▸ h5)
    · cases l' with
      | nil => simp at hmem
      | cons b l' =>
        obtain ⟨h5, -, h6, -⟩ := h4
        rw [h5]; exact h6
  | b :: l, l', p, a, a', h, hpx, hf, hg, _, ha' => by
    have hnd := h.chain.nodup
    have hbx : b ≠ x := by
      rintro rfl
      exact (List.nodup_cons.mp hnd).1 (by simp)
    obtain ⟨rfl, h2, rfl, h4⟩ := h
    rw [ha' hbx]
    refine ⟨rfl, h2, (hg a (by simp)).2 hpx, ?_⟩
    exact DSeg.remove h4 hbx (fun n hn => hf n (by simp_all)) (fun n hn => hg n (by simp_all))
      (hf a (by simp)).1 (hf a (by simp)).2

end Optics.Lib.LinkedList
