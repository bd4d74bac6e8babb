import Optics.TraversalPoller

/-! # A traversal under registrations and frees

What a run of `optics_foreach_lens` sees while lenses are registered and freed (`Walk`): the lenses
in front of it are among those that were in the list when it loaded the head, in their order, none of
them has been released since, and those that still are in the list have been visited or lie ahead.

* `reachable_ahead`: no lens ahead of a traversal is released.
* `foreach_safe`: what a traversal has visited, at any time and at its end. -/

namespace Optics.Traversal

open Optics.Base Optics.Lib.LinkedList Optics.Regions Optics.Lenses

variable {ι : Type}

/-! ### What is to be said -/

/-- The lens is in the list. -/
def Linked (s : State ι) (x : ℕ) : Prop := ∃ l, Chain s.next s.lensHead l ∧ x ∈ l

/-- The nodes one gets to from `a` along `next`. -/
inductive Ahead (s : State ι) : ℕ → ℕ → Prop
  | here {a : ℕ} (h0 : a ≠ 0) : Ahead s a a
  | next {a y : ℕ} (h0 : a ≠ 0) (h : Ahead s (s.next a) y) : Ahead s a y

/-- The node a traversal stands on, and the lenses it has visited, the last one first. -/
def Poller.At (p : Poller) (off : ℕ) (seen : List ℕ) : Prop :=
  p = .visit off seen ∨ p = .visited off seen

/-- A traversal is under way. -/
def Poller.Walks (p : Poller) : Prop := ∃ off seen, p.At off seen

/-- Steps from `s` to `s'` through states with `P`. -/
inductive During [DecidableEq ι] (P : State ι → Prop) : State ι → State ι → Prop
  | refl {s : State ι} (h : P s) : During P s s
  | step {s s' s'' : State ι} (h : During P s s') (hs : Step s' s'') (hp : P s'') : During P s s''

/-- A traversal that loaded the head in `s₀` is under way in `s`. -/
def Traversed [DecidableEq ι] (s₀ s : State ι) : Prop :=
  s₀.poller = .idle ∧ During (fun s => s.poller.Walks) (s₀.poll (.visit s₀.lensHead [])) s

/-- The lens has been taken off the list: `optics_remove_lens` has returned. -/
def Gone (s : State ι) (x : ℕ) : Prop :=
  (∃ i, s.owner x = .unlinked i) ∨ s.owner x = .leaked ∨ (∃ n, s.owner x = .deferred n) ∨
    s.owner x = .unused

/-! ### The invariant of a traversal -/

variable {s s' s₀ : State ι} {L L' L₀ : List ℕ} {D D' : Option (Fin 2) → List ℕ} {off : ℕ}
  {seen : List ℕ}

section During
variable [DecidableEq ι] {P Q : State ι → Prop}

theorem During.last (h : During P s s') : P s' := by
  cases h with
  | refl h => exact h
  | step _ _ h => exact h

theorem During.mono (h : During P s s')
    (hPQ : ∀ s, P s → Q s) : During Q s s' := by
  induction h with
  | refl h => exact .refl (hPQ _ h)
  | step _ hs hp ih => exact ih.step hs (hPQ _ hp)

theorem During.reachable (h : During P s s')
    (hr : Reachable s) : Reachable s' := by
  induction h with
  | refl _ => exact hr
  | step _ hs _ ih => exact Lib.Runs.Reachable.tail ih hs

end During

theorem Inv.linked_iff (h : Inv s L D) {x : ℕ} : Linked s x ↔ x ∈ L := by
  constructor
  · rintro ⟨l, hl, hx⟩
    exact hl.unique h.list.chain ▸ hx
  · exact fun hx => ⟨L, h.list.chain, hx⟩

/-- From `off` on, the traversal has the lenses of `L₀` in front of it, in their order, except those
it has visited and some that are off the list. -/
def Todo (s : State ι) (L L₀ : List ℕ) (off : ℕ) (seen : List ℕ) : Prop :=
  ∃ rest, Chain s.next off rest ∧ (seen.reverse ++ rest).Sublist L₀ ∧
    ∀ y ∈ L₀, y ∈ L → y ∈ seen ∨ y ∈ rest

/-- What is to do, where the poller is. -/
def Poller.Todo (s : State ι) (L L₀ : List ℕ) : Poller → Prop
  | .visit off seen => Traversal.Todo s L L₀ off seen
  | .visited off seen => ∃ seen', seen = off :: seen' ∧ off ≠ 0 ∧ Traversal.Todo s L L₀ off seen'
  | _ => False

/-- **The invariant of a traversal** that found the list `L₀`. -/
structure Walk (s : State ι) (L L₀ : List ℕ) : Prop where
  published : ∀ y ∈ L₀, (s.owner y).Published
  nodup : L₀.Nodup
  todo : s.poller.Todo s L L₀

theorem Todo.effect (h : Todo s L L₀ off seen) (hpub : ∀ y ∈ L₀, (s.owner y).Published)
    (h0 : 0 ∉ L) (he : Effect s s' L L') : Todo s' L' L₀ off seen := by
  obtain ⟨rest, hchain, hsub, hcover⟩ := h
  have hrest : ∀ y ∈ rest, (s.owner y).Published := fun y hy =>
    hpub y (hsub.subset (List.mem_append_right _ hy))
  have hold : ∀ y ∈ L₀, y ∈ L' → y ∈ L := by
    intro y hy hyL
    rcases he.new y hyL with h1 | ⟨i, h1⟩
    · exact h1
    · have h2 := hpub y hy
      rw [h1] at h2
      exact h2.elim
  rcases he.next with hnext | ⟨p, hp, hx, hx', hnext⟩
  · exact ⟨rest, hchain.congr fun y hy => hnext y (hrest y hy), hsub,
      fun y hy hyL => hcover y hy (hold y hy hyL)⟩
  · by_cases hpr : p ∈ rest
    · -- the lens that goes out lies ahead: the chain skips it
      obtain ⟨l₁, l₂, rfl⟩ := List.append_of_mem hpr
      have hxl := (chain_cons.mp hchain.suffix).2.2
      have hx0 : s.next p ≠ 0 := fun hc => h0 (hc ▸ hx)
      obtain ⟨l₃, rfl, -⟩ := hxl.uncons hx0
      refine ⟨l₁ ++ p :: l₃, hchain.skip (fun y hy hyp => ?_) ?_, ?_, fun y hy hyL => ?_⟩
      · rw [hnext y (hrest y hy), if_neg hyp]
      · rw [hnext p (hrest p hpr), if_pos rfl]
      · refine .trans ?_ hsub
        exact (List.Sublist.append_left ((List.Sublist.refl l₁).append
          ((List.sublist_cons_self _ _).cons_cons p)) _)
      · have hne : y ≠ s.next p := fun hc => hx' (hc ▸ hyL)
        rcases hcover y hy (hold y hy hyL) with h1 | h1
        · exact .inl h1
        · refine .inr ?_
          simp only [List.mem_append, List.mem_cons] at h1 ⊢
          tauto
    · refine ⟨rest, hchain.congr fun y hy => ?_, hsub,
        fun y hy hyL => hcover y hy (hold y hy hyL)⟩
      rw [hnext y (hrest y hy), if_neg fun (hc : y = p) => hpr (hc ▸ hy)]

theorem Todo.next (h : Todo s L L₀ off seen) (h0 : off ≠ 0) :
    Todo s L L₀ (s.next off) (off :: seen) := by
  obtain ⟨rest, hchain, hsub, hcover⟩ := h
  obtain ⟨l, rfl, hl⟩ := hchain.uncons h0
  refine ⟨l, hl, by simpa using hsub, fun y hy hyL => ?_⟩
  rcases hcover y hy hyL with h1 | h1
  · exact .inl (List.mem_cons_of_mem _ h1)
  · rcases List.mem_cons.mp h1 with rfl | h1
    · exact .inl List.mem_cons_self
    · exact .inr h1

/-- **The head is loaded.** -/
theorem Walk.start (h : Inv s L D) : Walk (s.poll (.visit s.lensHead [])) L L where
  published y hy := by
    show (s.owner y).Published
    rcases h.listed y hy with h1 | ⟨j, h1⟩
    · rw [h1]
      trivial
    · rw [h1]
      trivial
  nodup := h.list.chain.nodup
  todo := ⟨L, h.list.chain, by simp, fun y _ hy => .inr hy⟩

theorem Walk.threadStep [DecidableEq ι] {i : ι} (hw : Walk s L L₀) (h : Inv s L D)
    (hs : ThreadStep s i s') (he : Effect s s' L L') : Walk s' L' L₀ := by
  have h0 : 0 ∉ L := h.list.chain.2
  have hpoll : s'.poller = s.poller := by
    cases hs <;> rfl
  refine ⟨fun y hy => he.published (hw.published y hy), hw.nodup, ?_⟩
  rw [hpoll]
  have htodo := hw.todo
  cases hp : s.poller with
  | visit off seen =>
    rw [hp] at htodo
    exact Todo.effect htodo hw.published h0 he
  | visited off seen =>
    rw [hp] at htodo
    obtain ⟨seen', h1, h2, h3⟩ := htodo
    exact ⟨seen', h1, h2, h3.effect hw.published h0 he⟩
  | idle => rw [hp] at htodo; exact htodo
  | drain n => rw [hp] at htodo; exact htodo
  | drained n => rw [hp] at htodo; exact htodo

theorem Walk.pollerStep (hw : Walk s L L₀) (hs : PollerStep s s') (hwalks : s'.poller.Walks) :
    Walk s' L L₀ := by
  have htodo := hw.todo
  have hidle : ¬ Poller.Walks .idle := by
    rintro ⟨off, seen, h | h⟩ <;> cases h
  cases hs with
  | opened hp | take hp | head hp =>
    rw [hp] at htodo
    exact htodo.elim
  | leak hp | freeLens hp | leakLens hp | freeNode hp | leakNode hp | inc hp =>
    rw [hp] at htodo
    exact htodo.elim
  | @visit off seen hp h0 hv =>
    rw [hp] at htodo
    exact ⟨hw.published, hw.nodup, seen, rfl, h0, htodo⟩
  | @next off seen hp =>
    rw [hp] at htodo
    obtain ⟨seen', h1, h2, h3⟩ := htodo
    exact ⟨hw.published, hw.nodup, h1 ▸ h3.next h2⟩
  | done hp | fail hp => exact absurd hwalks hidle

/-- **A traversal keeps its invariant.** -/
theorem Traversed.walk [DecidableEq ι] (h₀ : Inv s₀ L₀ D) (h : Traversed s₀ s) :
    ∃ L D', Inv s L D' ∧ Walk s L L₀ := by
  obtain ⟨-, hd⟩ := h
  generalize hs₁ : s₀.poll (.visit s₀.lensHead []) = s₁ at hd
  induction hd with
  | refl =>
    subst hs₁
    exact ⟨L₀, D, h₀.poll_on trivial, .start h₀⟩
  | step _ hs hwalks ih =>
    obtain ⟨L, D', hI, hw⟩ := ih
    cases hs with
    | thread i hs =>
      obtain ⟨L', D'', hI', he⟩ := hI.threadStep hs
      exact ⟨L', D'', hI', hw.threadStep hI hs he⟩
    | poller hs =>
      obtain ⟨D'', hI'⟩ := hI.pollerStep hs
      exact ⟨L, D'', hI', hw.pollerStep hs hwalks⟩

/-- What holds when the head is loaded and is kept by every step of a traversal holds all along. -/
theorem Traversed.invariant [DecidableEq ι] {I : State ι → Prop} (h₀ : Inv s₀ L₀ D)
    (h : Traversed s₀ s) (hI : I (s₀.poll (.visit s₀.lensHead [])))
    (hstep : ∀ s s' L D', Inv s L D' → Walk s L L₀ → s.poller.Walks → s'.poller.Walks → Step s s' →
      I s → I s') : I s := by
  obtain ⟨hidle, hd⟩ := h
  generalize hs₁ : s₀.poll (.visit s₀.lensHead []) = s₁ at hd
  induction hd with
  | refl => exact hs₁ ▸ hI
  | @step s' s'' hd hs hwalks ih =>
    subst hs₁
    obtain ⟨L, D', hinv, hw⟩ := Traversed.walk h₀ ⟨hidle, hd⟩
    exact hstep _ _ L D' hinv hw hd.last hwalks hs ih

/-! ### What the invariant says -/

theorem Chain.mem_of_ahead {a y : ℕ} (h : Ahead s a y) : ∀ {l : List ℕ}, Chain s.next a l → y ∈ l := by
  induction h with
  | here h0 =>
    intro l hl
    obtain ⟨l', rfl, -⟩ := hl.uncons h0
    exact List.mem_cons_self
  | next h0 _ ih =>
    intro l hl
    obtain ⟨l', rfl, hl'⟩ := hl.uncons h0
    exact List.mem_cons_of_mem _ (ih hl')

theorem Todo.ahead (h : Todo s L L₀ off seen) {y : ℕ} (hy : Ahead s off y) : y ∈ L₀ := by
  obtain ⟨rest, hchain, hsub, -⟩ := h
  exact hsub.subset (List.mem_append_right _ (Chain.mem_of_ahead hy hchain))

theorem Todo.seen_sub (h : Todo s L L₀ off seen) : seen.reverse.Sublist L₀ := by
  obtain ⟨rest, -, hsub, -⟩ := h
  exact (List.sublist_append_left _ _).trans hsub

/-- The traversal has visited lenses of `L₀` in their order; what lies ahead is in `L₀`. -/
theorem Walk.at (hw : Walk s L L₀) (h : s.poller.At off seen) :
    seen.reverse.Sublist L₀ ∧ ∀ y, Ahead s off y → y ∈ L₀ := by
  have htodo := hw.todo
  rcases h with h | h
  · rw [h] at htodo
    exact ⟨htodo.seen_sub, fun y hy => htodo.ahead hy⟩
  · rw [h] at htodo
    obtain ⟨seen', rfl, h2, h3⟩ := htodo
    exact ⟨(h3.next h2).seen_sub, fun y hy => h3.ahead hy⟩

theorem Reachable.began [DecidableEq ι] (h : Reachable s) (hw : s.poller.Walks) :
    ∃ s₀, Reachable s₀ ∧ Traversed s₀ s := by
  obtain ⟨s1, h1, hr⟩ := h
  induction hr with
  | refl =>
    obtain ⟨off, seen, hp | hp⟩ := hw
    · rw [h1.poller] at hp
      cases hp
    · rw [h1.poller] at hp
      cases hp
  | @tail a b hr hs ih =>
    have ha : Reachable a := ⟨s1, h1, hr⟩
    by_cases hwa : a.poller.Walks
    · obtain ⟨s₀, hs₀, hidle, hd⟩ := ih hwa
      exact ⟨s₀, hs₀, hidle, hd.step hs hw⟩
    · refine ⟨a, ha, ?_⟩
      cases hs with
      | thread i hs =>
        have hpoll : b.poller = a.poller := by
          cases hs <;> rfl
        rw [hpoll] at hw
        exact absurd hw hwa
      | poller hs =>
        cases hs with
        | head hp => exact ⟨hp, .refl hw⟩
        | opened hp =>
          obtain ⟨off, seen, h | h⟩ := hw
          · exact nomatch hp.symm.trans h
          · exact nomatch hp.symm.trans h
        | visit hp => exact absurd ⟨_, _, .inl hp⟩ hwa
        | next hp => exact absurd ⟨_, _, .inr hp⟩ hwa
        | _ => obtain ⟨off, seen, h | h⟩ := hw <;> cases h

/-- **No lens ahead of a traversal is released**: not the one it stands on, and none that can be
reached from it. -/
theorem reachable_ahead [DecidableEq ι] (h : Reachable s) (hat : s.poller.At off seen) {y : ℕ}
    (hy : Ahead s off y) : (s.owner y).Published := by
  obtain ⟨s₀, h₀, ht⟩ := h.began ⟨off, seen, hat⟩
  obtain ⟨L₀, D, hI⟩ := h₀.inv
  obtain ⟨L, D', -, hw⟩ := ht.walk hI
  exact hw.published y ((hw.at hat).2 y hy)

theorem Gone.not_linked (h : Inv s L D) {x : ℕ} (hx : Gone s x) : ¬ Linked s x := by
  rw [h.linked_iff]
  intro hxL
  rcases h.listed x hxL with h1 | ⟨j, h1⟩ <;>
    rcases hx with ⟨i, h2⟩ | h2 | ⟨n, h2⟩ | h2 <;> rw [h1] at h2 <;> cases h2

/-! ### The traversal comes to an end -/

/-- How many steps a traversal has taken. -/
def Poller.turns : Poller → ℕ
  | .visit _ seen => 2 * seen.length
  | .visited _ seen => 2 * seen.length - 1
  | _ => 0

/-- Every step of the poller ends the traversal or takes it one step on. -/
theorem PollerStep.turns (h : PollerStep s s') (hat : s.poller.At off seen) (hw : Walk s L L₀) :
    s'.poller = .idle ∨ s'.poller.turns = s.poller.turns + 1 := by
  have htodo := hw.todo
  cases h with
  | @visit off seen hp h0 hv =>
    refine .inr ?_
    rw [hp]
    show 2 * (seen.length + 1) - 1 = 2 * seen.length + 1
    omega
  | @next off seen hp =>
    rw [hp] at htodo ⊢
    obtain ⟨seen', rfl, -⟩ := htodo
    refine .inr ?_
    show 2 * (seen'.length + 1) = 2 * (seen'.length + 1) - 1 + 1
    omega
  | done hp => exact .inl rfl
  | fail hp => exact .inl rfl
  | opened hp | take hp | leak hp | freeLens hp | leakLens hp | freeNode hp | leakNode hp | inc hp
    | head hp => rcases hat with h | h <;> exact nomatch hp.symm.trans h

theorem PollerStep.exists (hat : s.poller.At off seen) : ∃ s', PollerStep s s' := by
  rcases hat with hp | hp
  · by_cases h0 : off = 0
    · subst h0
      exact ⟨_, .done hp⟩
    · cases hv : s.view.coversLens s.node off with
      | true => exact ⟨_, .visit hp h0 hv⟩
      | false => exact ⟨_, .fail hp h0 hv⟩
  · exact ⟨_, .next hp⟩

theorem Walk.turns_le (hw : Walk s L L₀) (hat : s.poller.At off seen) :
    s.poller.turns ≤ 2 * L₀.length := by
  have hlen := (hw.at hat).1.length_le
  rw [List.length_reverse] at hlen
  rcases hat with hp | hp
  · rw [hp]
    show 2 * seen.length ≤ _
    omega
  · rw [hp]
    show 2 * seen.length - 1 ≤ _
    omega

/-- A traversal that has come to its end has visited every lens of `L₀` that still is in the list. -/
theorem Walk.complete (hw : Walk s L L₀) (hp : s.poller = .visit 0 seen) {x : ℕ} (hx₀ : x ∈ L₀)
    (hx : x ∈ L) : x ∈ seen := by
  have htodo := hw.todo
  rw [hp] at htodo
  obtain ⟨rest, hchain, -, hcover⟩ := htodo
  rw [hchain.eq_nil_iff.mpr rfl] at hcover
  exact (hcover x hx₀ hx).resolve_right List.not_mem_nil

theorem Walk.seen_nodup (hw : Walk s L L₀) (hat : s.poller.At off seen) : seen.Nodup :=
  List.nodup_reverse.mp (hw.nodup.sublist (hw.at hat).1)

theorem Traversed.view [DecidableEq ι] (h₀ : Inv s₀ L₀ D) (h : Traversed s₀ s) :
    s.view = s₀.view := by
  refine h.invariant (I := fun s => s.view = s₀.view) h₀ rfl fun s s' L D' _ _ _ hwalks hs hv => ?_
  rw [← hv]
  cases hs with
  | thread i hs => cases hs <;> rfl
  | poller hs =>
    cases hs with
    | opened hp =>
      obtain ⟨off, seen, h | h⟩ := hwalks
      · exact nomatch hp.symm.trans h
      · exact nomatch hp.symm.trans h
    | _ => rfl

/-- **Deferred release makes the traversal safe and complete.** In every reachable state no lens that
can be reached from where a traversal stands has been released since it was in the list. A traversal
through a mapping of the whole region that loaded the head in `s₀`: no lens of the list it found is
released while it runs; it visits lenses of that list only, so none that was taken off before, and
none twice; at its end it has visited once every lens that was in the list all along; and it comes to
an end: it can always take a step, of which it takes at most two for each lens of the list it
found. -/
theorem foreach_safe [DecidableEq ι] :
    (∀ (s : State ι) (off : ℕ) (seen : List ℕ), Reachable s → s.poller.At off seen → ∀ y,
      Ahead s off y → (s.owner y).Published) ∧
    ∀ s₀ s : State ι, Reachable s₀ → s₀.view = .whole → Traversed s₀ s →
      ∀ (off : ℕ) (seen : List ℕ), s.poller.At off seen →
      (∀ y, Linked s₀ y → (s.owner y).Published) ∧
      (∀ y, Ahead s off y → Linked s₀ y) ∧
      (∀ x ∈ seen, Linked s₀ x) ∧ (∀ x, Gone s₀ x → x ∉ seen) ∧ seen.Nodup ∧
      (s.poller = .visit 0 seen → ∀ x, Linked s₀ x → Linked s x → seen.count x = 1) ∧
      (s.poller = .visit off seen → off ≠ 0 → PollerStep s (s.poll (.visited off (off :: seen)))) ∧
      (∃ s', PollerStep s s') ∧
      (∀ s', PollerStep s s' → s'.poller = .idle ∨ s'.poller.turns = s.poller.turns + 1) ∧
      ∀ l, Chain s₀.next s₀.lensHead l → s.poller.turns ≤ 2 * l.length := by
  refine ⟨fun s off seen h hat y hy => reachable_ahead h hat hy, fun s₀ s h₀ hview ht off seen hat => ?_⟩
  obtain ⟨L₀, D, hI₀⟩ := h₀.inv
  obtain ⟨L, D', hI, hw⟩ := ht.walk hI₀
  have hsub : ∀ x ∈ seen, x ∈ L₀ := fun x hx =>
    (hw.at hat).1.subset (List.mem_reverse.mpr hx)
  refine ⟨fun y hy => hw.published y (hI₀.linked_iff.mp hy),
    fun y hy => hI₀.linked_iff.mpr ((hw.at hat).2 y hy),
    fun x hx => hI₀.linked_iff.mpr (hsub x hx),
    fun x hx hmem => hx.not_linked hI₀ (hI₀.linked_iff.mpr (hsub x hmem)),
    hw.seen_nodup hat, fun hp x hx₀ hx => ?_, fun hp h0 => .visit hp h0 ?_, PollerStep.exists hat,
    fun s' hs => hs.turns hat hw, fun l hl => ?_⟩
  · exact List.count_eq_one_of_mem (hw.seen_nodup hat)
      (hw.complete hp (hI₀.linked_iff.mp hx₀) (hI.linked_iff.mp hx))
  · rw [ht.view hI₀, hview]
    rfl
  · rw [hl.unique hI₀.list.chain]
    exact hw.turns_le hat

/-- An empty region, with one thread. -/
def emptyRegion : State Unit :=
  ⟨regionDefaultLen, 0, fun _ => 0, 0, fun _ => ⟨0, 0, 0⟩, fun _ => ⟨0, 0, 0⟩, fun _ => .unused, none,
    fun _ => .idle, .whole, .idle⟩

section Turns
variable [DecidableEq ι] {s₁ : State ι} {i : ι} {seen : List ℕ}

theorem During.visits (h : During (fun s => s.poller.Walks) s₁ s) (hp : s.poller = .visit off seen)
    (h0 : off ≠ 0) (hv : s.view = .whole) :
    During (fun s => s.poller.Walks) s₁ (s.poll (.visited off (off :: seen))) := by
  have hcovers : s.view.coversLens s.node off = true := by
    rw [hv]
    rfl
  exact h.step (.poller (.visit hp h0 hcovers)) ⟨_, _, .inr rfl⟩

theorem During.goesOn (h : During (fun s => s.poller.Walks) s₁ s) (hp : s.poller = .visited off seen) :
    During (fun s => s.poller.Walks) s₁ (s.poll (.visit (s.next off) seen)) :=
  h.step (.poller (.next hp)) ⟨_, _, .inl rfl⟩

theorem steps_poller (h : Relation.ReflTransGen (ThreadStep · i) s s') :
    s'.poller = s.poller ∧ s'.view = s.view := by
  induction h with
  | refl => exact ⟨rfl, rfl⟩
  | tail _ hs ih =>
    refine ih.imp (fun h => ?_) fun h => ?_
    · rw [← h]
      cases hs <;> rfl
    · rw [← h]
      cases hs <;> rfl

theorem During.steps (h : During (fun s => s.poller.Walks) s₁ s)
    (hrun : Relation.ReflTransGen (ThreadStep · i) s s') :
    During (fun s => s.poller.Walks) s₁ s' := by
  induction hrun with
  | refl => exact h
  | tail hrun hs ih =>
    refine ih.step (.thread i hs) ?_
    rw [(steps_poller (hrun.tail hs)).1]
    exact h.last

end Turns

/-- A thread registers a lens, from the call to the return, while another one stays in the list. -/
theorem Inv.register [DecidableEq ι] (h : Inv s L D) {i : ι} {x total len : ℕ} {P : State ι → Prop}
    (hi : s.thread i = .idle) (hl : s.lock = none) (h0 : x ≠ 0) (hu : s.owner x = .unused)
    (hlen : s.len ≤ len) (ht : sizeofLens ≤ total) (hfit : x + total ≤ len) (hs : P s)
    (hP : ∀ (s' : State ι) L' D', Inv s' L' D' → L ⊆ L' → s'.view = s.view → P s') :
    ∃ s', During P s s' ∧ Inv s' (x :: L) D ∧ s'.thread i = .idle ∧ s'.lock = none ∧
      (∀ y, y ≠ x → s'.owner y = s.owner y) ∧ s'.epochDefers = s.epochDefers ∧
      s'.poller = s.poller ∧ s'.view = s.view ∧ s'.len = len ∧ s'.lensHead = x ∧
      s'.next x = s.lensHead ∧ s'.owner x = .linked := by
  have hk : Kept s (s.withMem len (Function.update s.node x ⟨0, 0, total⟩) s.defer) := by
    refine ⟨fun y hy => Function.update_of_ne ?_ .., fun y hy => rfl⟩
    rintro rfl
    exact hy hu
  have hc : Function.update s.node x ⟨0, 0, total⟩ x = ⟨0, 0, total⟩ := Function.update_self ..
  set s₁ := ((s.withMem len (Function.update s.node x ⟨0, 0, total⟩) s.defer).own x
    (.registering i)).go i (.made x) with hs₁
  have h₁ : Inv s₁ L D := (h.alloc hi h0 hu hk hc).1
  have t₁ : s₁.thread i = .made x := Function.update_self ..
  set s₂ := { s₁ with lock := some i }.go i (.put x) with hs₂
  have h₂ : Inv s₂ L D ∧ Effect s₁ s₂ L L :=
    h₁.quiet t₁ (.acquire hl rfl rfl) rfl rfl fun h => h
  have t₂ : s₂.thread i = .put x := Function.update_self ..
  set s₃ := s₂.go i (.setNext x) with hs₃
  have h₃ : Inv s₃ L D ∧ Effect s₂ s₃ L L :=
    h₂.1.quiet t₂ (.keep rfl (by rw [t₂]; rfl)) rfl rfl fun h => h
  have t₃ : s₃.thread i = .setNext x := Function.update_self ..
  set s₄ := (s₃.setNext x s₃.lensHead).go i (.setPrev x) with hs₄
  have h₄ : Inv s₄ L D := (h₃.1.setNext t₃).1
  have t₄ : s₄.thread i = .setPrev x := Function.update_self ..
  set s₅ := (s₄.setPrev (s₄.next x) x).go i (.setHead x) with hs₅
  have h₅ : Inv s₅ L D := (h₄.setPrev t₄).1
  have t₅ : s₅.thread i = .setHead x := Function.update_self ..
  set s₆ := ({ s₅ with lensHead := x }.own x .linked).go i .release with hs₆
  have h₆ : Inv s₆ (x :: L) D := (h₅.setHead t₅).1
  have t₆ : s₆.thread i = .release := Function.update_self ..
  set s₇ := { s₆ with lock := none }.go i .idle with hs₇
  have h₇ : Inv s₇ (x :: L) D ∧ Effect s₆ s₇ (x :: L) (x :: L) :=
    h₆.quiet t₆ (.release (by rw [t₆]; rfl) rfl rfl) rfl rfl fun h => h
  have hsub : L ⊆ x :: L := List.subset_cons_self x L
  have hrun := (During.refl hs).step (.thread i (.alloc hi h0 hu hlen ht hfit hk hc))
      (hP s₁ L D h₁ (fun _ h => h) rfl)
    |>.step (.thread i (.lockPut t₁ hl)) (hP s₂ L D h₂.1 (fun _ h => h) rfl)
    |>.step (.thread i (.put t₂)) (hP s₃ L D h₃.1 (fun _ h => h) rfl)
    |>.step (.thread i (.setNext t₃)) (hP s₄ L D h₄ (fun _ h => h) rfl)
    |>.step (.thread i (.setPrev t₄)) (hP s₅ L D h₅ (fun _ h => h) rfl)
    |>.step (.thread i (.setHead t₅)) (hP s₆ _ D h₆ hsub rfl)
    |>.step (.thread i (.release t₆)) (hP s₇ _ D h₇.1 hsub rfl)
  refine ⟨s₇, hrun, h₇.1, Function.update_self .., rfl, fun y hy => ?_, rfl, rfl, rfl, rfl, rfl, ?_,
    Function.update_self ..⟩
  · exact (Function.update_of_ne hy ..).trans (Function.update_of_ne hy ..)
  · show (s₄.setPrev (s₄.next x) x).next x = _
    rw [next_setPrev]
    show (s₃.setNext x s₃.lensHead).next x = _
    rw [next_setNext, if_neg h0, Function.update_self]
    rfl

/-- A thread takes a lens off the list: `optics_lens_free` up to the release of the lock. -/
theorem steps_takeOff [DecidableEq ι] {i : ι} {x : ℕ} (hi : s.thread i = .idle) (hl : s.lock = none)
    (hx : s.owner x = .linked) : ∃ s', Relation.ReflTransGen (ThreadStep · i) s s' ∧
      s'.thread i = .deferFree x ∧ (∀ y, y ≠ x → s'.owner y = s.owner y) ∧
      s'.next = if s.prev x = 0 then s.next else Function.update s.next (s.prev x) (s.next x) := by
  set s₁ := (s.own x (.freeing i)).go i (.free x) with hs₁
  have t₁ : s₁.thread i = .free x := Function.update_self ..
  set s₂ := { s₁ with lock := some i }.go i (.del x) with hs₂
  have t₂ : s₂.thread i = .del x := Function.update_self ..
  set s₃ := s₂.go i (.killNext x) with hs₃
  have t₃ : s₃.thread i = .killNext x := Function.update_self ..
  set s₄ := (s₃.setPrev (s₃.next x) (s₃.prev x)).go i (.killPrev x) with hs₄
  have t₄ : s₄.thread i = .killPrev x := Function.update_self ..
  set s₅ := (s₄.setNext (s₄.prev x) (s₄.next x)).go i (.removeHead x) with hs₅
  have t₅ : s₅.thread i = .removeHead x := Function.update_self ..
  set s₆ := ({ s₅ with lensHead := if s₅.lensHead = x then s₅.next x else s₅.lensHead }.own x
    (.unlinked i)).go i (.removed x) with hs₆
  have t₆ : s₆.thread i = .removed x := Function.update_self ..
  have hbegin : Relation.ReflTransGen (ThreadStep · i) s s := .refl
  have hrun := hbegin.tail (.free hi hx) |>.tail (.lockDel t₁ hl) |>.tail (.del t₂)
    |>.tail (.killNext t₃) |>.tail (.killPrev t₄) |>.tail (.removeHead t₅)
    |>.tail (.unlockRemoved t₆)
  refine ⟨_, hrun, Function.update_self .., fun y hy => ?_, ?_⟩
  · exact (Function.update_of_ne hy ..).trans (Function.update_of_ne hy ..)
  · show (s₄.setNext (s₄.prev x) (s₄.next x)).next = _
    have hn₄ : s₄.next = s.next := next_setPrev s₃ _ _
    have hp₄ : s₄.prev x = s.prev x := by
      show (s₃.setPrev (s₃.next x) (s₃.prev x)).prev x = _
      rw [prev_setPrev]
      split_ifs
      · rfl
      · rw [Function.update_apply]
        split_ifs
        · rfl
        · rfl
    rw [next_setNext, hn₄, hp₄]

/-- A thread puts a lens it has taken off into the list of the epoch: `optics_defer_free`. -/
theorem steps_defer [DecidableEq ι] {i : ι} {x n : ℕ} (hi : s.thread i = .deferFree x) (h0 : n ≠ 0)
    (hu : s.owner n = .unused) : ∃ s', Relation.ReflTransGen (ThreadStep · i) s s' ∧
      s'.owner x = .deferred n ∧ s'.next = s.next := by
  set node : Defer := ⟨x, (s.node x).total, 0⟩ with hnode
  have hk : Kept s (s.withMem s.len s.node (Function.update s.defer n node)) := by
    refine ⟨fun y _ => rfl, fun y hy => Function.update_of_ne ?_ ..⟩
    rintro rfl
    exact hy hu
  set s₁ := ((s.withMem s.len s.node (Function.update s.defer n node)).own n (.held i)).go i
    (.deferEpoch x n) with hs₁
  have t₁ : s₁.thread i = .deferEpoch x n := Function.update_self ..
  set s₂ := s₁.go i (.deferLoad x n s₁.opticsEpoch) with hs₂
  have t₂ : s₂.thread i = .deferLoad x n s₁.opticsEpoch := Function.update_self ..
  set s₃ := (s₂.setDeferNext n (s₂.epochDefers s₁.opticsEpoch)).go i
    (.deferPush x n s₁.opticsEpoch (s₂.epochDefers s₁.opticsEpoch)) with hs₃
  have t₃ : s₃.thread i = .deferPush x n s₁.opticsEpoch (s₂.epochDefers s₁.opticsEpoch) :=
    Function.update_self ..
  set s₄ := (({ s₃ with epochDefers := Function.update s₃.epochDefers s₁.opticsEpoch n }.own n
    (.queued (some s₁.opticsEpoch))).own x (.deferred n)).go i .idle with hs₄
  have hbegin : Relation.ReflTransGen (ThreadStep · i) s s := .refl
  have hrun := hbegin.tail (.deferAlloc hi h0 hu le_rfl hk (Function.update_self ..))
    |>.tail (.deferEpoch t₁) |>.tail (.deferLoad t₂) |>.tail (.deferPush t₃ rfl)
  have hnode₃ : s₃.node = s.node := rfl
  have hnode₄ : s₄.node = s₃.node := rfl
  refine ⟨s₄, hrun, Function.update_self .., ?_⟩
  funext y
  unfold State.next
  rw [hnode₄, hnode₃]

theorem registered_one : ∃ s : State Unit, Reachable s ∧ Inv s [704] (fun _ => []) ∧
    s.thread () = .idle ∧ s.lock = none ∧ (∀ y, y ≠ 704 → s.owner y = .unused) ∧
    (∀ e, s.epochDefers e = 0) ∧ s.poller = .idle ∧ s.view = .whole ∧ s.len = regionDefaultLen ∧
    s.lensHead = 704 ∧ s.next 704 = 0 := by
  have h0 : Start emptyRegion := ⟨rfl, fun _ => rfl, fun _ => rfl, rfl, fun _ => rfl, rfl⟩
  have hfit : 704 + 96 ≤ regionDefaultLen := by decide
  obtain ⟨s, hrun, hI, hi, hl, ho, hd, hp, hv, hlen, hh, hn⟩ := (Inv.start h0).register (i := ())
    (P := fun _ => True) rfl rfl (by decide) rfl le_rfl (by decide) hfit trivial
    fun _ _ _ _ _ _ => trivial
  exact ⟨s, hrun.reachable (.of_start h0), hI, hi, hl, fun y hy => ho y hy, fun e => congrFun hd e, hp,
    hv, hlen, hh, hn.1⟩

/-- The thread registers two more, at 1000 and at 2000. -/
theorem registered_three : ∃ (s : State Unit) (D : Option (Fin 2) → List ℕ), Reachable s ∧
    Inv s [2000, 1000, 704] D ∧ s.thread () = .idle ∧ s.lock = none ∧ s.owner 1000 = .linked ∧
    s.owner 3000 = .unused ∧ s.poller = .idle ∧ s.view = .whole ∧ s.lensHead = 2000 ∧
    s.next 2000 = 1000 ∧ s.next 1000 = 704 ∧ s.next 704 = 0 ∧ s.prev 1000 = 2000 := by
  obtain ⟨s₁, hr, hI₁, hi₁, hl₁, ho₁, -, hp₁, hv₁, hlen₁, -⟩ := registered_one
  obtain ⟨s₂, hrun₂, hI₂, hi₂, hl₂, ho₂, -, hp₂, hv₂, hlen₂, -, -, hx₂⟩ := hI₁.register (i := ())
    (x := 1000) (P := fun _ => True) hi₁ hl₁ (by decide) (ho₁ 1000 (by decide)) hlen₁.le
    (show sizeofLens ≤ 96 by decide) (by decide) trivial fun _ _ _ _ _ _ => trivial
  obtain ⟨s₃, hrun₃, hI₃, hi₃, hl₃, ho₃, -, hp₃, hv₃, -⟩ := hI₂.register (i := ())
    (x := 2000) (P := fun _ => True) hi₂ hl₂ (by decide)
    ((ho₂ 2000 (by decide)).trans (ho₁ 2000 (by decide))) hlen₂.le
    (show sizeofLens ≤ 96 by decide) (by decide) trivial fun _ _ _ _ _ _ => trivial
  have hlist := hI₃.list
  rw [State.edit, hl₃] at hlist
  obtain ⟨hh, -, -, hn₂, -, hprev, hn₁, -, -, hn₀⟩ := hlist
  exact ⟨s₃, _, hrun₃.reachable (hrun₂.reachable hr), hI₃, hi₃, hl₃,
    (ho₃ 1000 (by decide)).trans hx₂,
    ((ho₃ 3000 (by decide)).trans (ho₂ 3000 (by decide))).trans (ho₁ 3000 (by decide)),
    (hp₃.trans hp₂).trans hp₁, (hv₃.trans hv₂).trans hv₁, hh, hn₂, hn₁, hn₀, hprev⟩

/-- The poller stands on the second lens when a thread frees it, and goes on to the third one. -/
theorem foreach_safe_three : ∃ s₀ s : State Unit, Reachable s₀ ∧ Traversed s₀ s ∧
    s.poller = .visit 0 [704, 1000, 2000] ∧ s.owner 1000 = .deferred 3000 ∧
    (s.owner 1000).Published ∧ [704, 1000, 2000].Nodup := by
  obtain ⟨s₀, D, hr, hI, hi, hl, hx, hu, hp, hv, hh, hn₂, hn₁, hn₀, hprev⟩ := registered_three
  have hbegin : During (fun s => s.poller.Walks) (s₀.poll (.visit s₀.lensHead []))
    (s₀.poll (.visit 2000 [])) := by
    rw [hh]
    exact .refl ⟨_, _, .inl rfl⟩
  have hsecond : During (fun s => s.poller.Walks) (s₀.poll (.visit s₀.lensHead []))
      (s₀.poll (.visit 1000 [2000])) := by
    rw [← hn₂]
    exact (hbegin.visits rfl (by decide) hv).goesOn rfl
  obtain ⟨s₁, hrun₁, hi₁, ho₁, hnext₁⟩ := steps_takeOff (x := 1000)
    (s := s₀.poll (.visited 1000 [1000, 2000])) hi hl hx
  obtain ⟨s₂, hrun₂, ho₂, hnext₂⟩ := steps_defer (n := 3000) hi₁ (by decide)
    ((ho₁ 3000 (by decide)).trans hu)
  have hfreed := ((hsecond.visits rfl (by decide) hv).steps hrun₁).steps hrun₂
  obtain ⟨hp₂, hv₂⟩ := steps_poller (hrun₁.trans hrun₂)
  have hnext : s₂.next 1000 = 704 ∧ s₂.next 704 = 0 := by
    have hprev₁ : (s₀.poll (.visited 1000 [1000, 2000])).prev 1000 = 2000 := hprev
    rw [hnext₂, hnext₁, hprev₁]
    exact ⟨hn₁, hn₀⟩
  have hthird := hfreed.goesOn hp₂
  rw [hnext.1] at hthird
  have hlast : During (fun s => s.poller.Walks) (s₀.poll (.visit s₀.lensHead []))
      (s₂.poll (.visit 0 [704, 1000, 2000])) := by
    rw [← hnext.2]
    exact (hthird.visits rfl (by decide) (hv₂.trans hv)).goesOn rfl
  have hsafe := foreach_safe.2 s₀ _ hr hv ⟨hp, hlast⟩ 0 [704, 1000, 2000] (.inl rfl)
  exact ⟨s₀, _, hr, ⟨hp, hlast⟩, rfl, ho₂, hsafe.1 1000 (hI.linked_iff.mpr (by decide)),
    hsafe.2.2.2.2.1⟩

end Optics.Traversal
