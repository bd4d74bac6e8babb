import Optics.TraversalWalk

/-! # A poll from another process

`optics_poller_poll_at` opens a region, which maps the file at its length, moves the epoch on and
goes through the list; meanwhile the owner registers and frees lenses, for which the file may grow.
`optics_foreach_lens` gives up at a lens that is not mapped, and the poller does not look at what it
returns.

* `poll_covers`: a poll that arrives at no lens outside its mapping calls `poller_poll_lens` on every
  lens registered before the region was opened and not freed until the end; it arrives at none when
  the file has not grown before the head is loaded.
* `poll_misses`: otherwise it may miss all of them. -/

namespace Optics.Traversal

open Optics.Base Optics.Lib.LinkedList Optics.Regions Optics.Lenses Optics.Registry

section
variable {ι : Type} {s s' s₀ s₁ : State ι} {L L' L₀ : List ℕ} {D D' : Option (Fin 2) → List ℕ}
  {off x : ℕ} {seen : List ℕ}

/-! ### A poll -/

/-- The region as `optics_open` maps it. -/
def State.opened (s : State ι) : State ι := { s with view := .opened s.len }

/-- A poll that opened the region in `s₁`, loaded the head in `s₀` and is in `s`, with the lens in the
list all along. -/
structure Polled [DecidableEq ι] (s₁ s₀ s : State ι) (x : ℕ) : Prop where
  reachable : Reachable s₁
  idle : s₁.poller = .idle
  before : During (fun s => s.view = .opened s₁.len ∧ Linked s x) s₁.opened s₀
  load : s₀.poller = .idle
  after : During (fun s => s.poller.Walks ∧ Linked s x) (s₀.poll (.visit s₀.lensHead [])) s

/-- The lens a traversal has arrived at is mapped. -/
def Inside (s : State ι) : Prop :=
  ∀ off seen, s.poller = .visit off seen → off ≠ 0 → s.view.coversLens s.node off = true

/-- **Polls cover the region**: at the end of every poll that meets `C`, the callback has been called
on every lens that was in the list from the time the region was opened. -/
def CoversWhen [DecidableEq ι] (C : State ι → State ι → State ι → Prop) : Prop :=
  ∀ (s₁ s₀ s s' : State ι) (x off : ℕ) (seen : List ℕ), Polled s₁ s₀ s x → C s₁ s₀ s →
    s.poller.At off seen → PollerStep s s' → s'.poller = .idle → x ∈ seen

section Poll
variable [DecidableEq ι]

theorem Polled.traversed (h : Polled s₁ s₀ s x) : Traversed s₀ s :=
  ⟨h.load, h.after.mono fun _ hs => hs.1⟩

theorem Polled.reachable_load (h : Polled s₁ s₀ s x) : Reachable s₀ :=
  h.before.reachable (h.reachable.poller (.opened h.idle))

theorem Polled.mem_seen (h : Polled s₁ s₀ s x) (hp : s.poller = .visit 0 seen) : x ∈ seen := by
  obtain ⟨L₀, D, hI₀⟩ := h.reachable_load.inv
  obtain ⟨L, D', hI, hw⟩ := h.traversed.walk hI₀
  exact hw.complete hp (hI₀.linked_iff.mp h.before.last.2) (hI.linked_iff.mp h.after.last.2)

omit [DecidableEq ι] in
/-- A traversal ends where it has arrived, and at null exactly if it is inside the mapping. -/
theorem PollerStep.ends_at (hs : PollerStep s s') (hat : s.poller.At off seen)
    (hi : s'.poller = .idle) : s.poller = .visit off seen ∧ (off = 0 ↔ Inside s) := by
  have hno : ∀ {p : Poller}, s.poller = p → (∀ off seen, p ≠ .visit off seen) →
      (∀ off seen, p ≠ .visited off seen) → False := by
    rintro p hp h1 h2
    rcases hat with h | h
    · exact h1 _ _ (hp.symm.trans h)
    · exact h2 _ _ (hp.symm.trans h)
  cases hs with
  | visit | next => cases hi
  | @done seen' hp =>
    rcases hat with h | h
    · rw [hp] at h
      cases h
      refine ⟨hp, fun _ off seen h h0 => ?_, fun _ => rfl⟩
      rw [hp] at h
      cases h
      exact absurd rfl h0
    · exact nomatch hp.symm.trans h
  | @fail off' seen' hp h0 hv =>
    rcases hat with h | h
    · rw [hp] at h
      cases h
      refine ⟨hp, fun hc => absurd hc h0, fun hin => ?_⟩
      rw [hin off seen hp h0] at hv
      cases hv
    · exact nomatch hp.symm.trans h
  | opened hp | take hp | leak hp | freeLens hp | leakLens hp | freeNode hp | leakNode hp | inc hp
    | head hp =>
    exact (hno hp (fun _ _ hc => nomatch hc) fun _ _ hc => nomatch hc).elim

omit [DecidableEq ι] in
theorem Ahead.of_chain : ∀ {l : List ℕ} {a y : ℕ}, Chain s.next a l → y ∈ l → Ahead s a y
  | b :: l, a, y, h, hy => by
    obtain ⟨rfl, h0, hl⟩ := chain_cons.mp h
    rcases List.mem_cons.mp hy with rfl | hy
    · exact .here h0
    · exact .next h0 (Ahead.of_chain hl hy)

/-- A lens is missed exactly if it lies ahead of where the traversal ends. -/
theorem Polled.mem_seen_iff (h : Polled s₁ s₀ s x) (hp : s.poller = .visit off seen) :
    x ∈ seen ↔ ¬ Ahead s off x := by
  obtain ⟨L₀, D, hI₀⟩ := h.reachable_load.inv
  obtain ⟨L, D', hI, hw⟩ := h.traversed.walk hI₀
  have htodo := hw.todo
  rw [hp] at htodo
  obtain ⟨rest, hchain, hsub, hcover⟩ := htodo
  have hx := hcover x (hI₀.linked_iff.mp h.before.last.2) (hI.linked_iff.mp h.after.last.2)
  have hdisj := List.disjoint_of_nodup_append (hw.nodup.sublist hsub)
  constructor
  · exact fun hmem ha =>
      hdisj (List.mem_reverse.mpr hmem) (Chain.mem_of_ahead ha hchain)
  · exact fun ha => hx.resolve_right fun hmem => ha (.of_chain hchain hmem)

/-! ### As long as the file does not grow -/

omit [DecidableEq ι] in
theorem total_setNext (s : State ι) (x v y : ℕ) :
    ((s.setNext x v).node y).total = (s.node y).total := by
  by_cases h0 : x = 0
  · simp [State.setNext, h0]
  · by_cases h : y = x
    · simp [State.setNext, h0, h]
    · simp [State.setNext, h0, h]

omit [DecidableEq ι] in
theorem total_setPrev (s : State ι) (x v y : ℕ) :
    ((s.setPrev x v).node y).total = (s.node y).total := by
  by_cases h0 : x = 0
  · simp [State.setPrev, h0]
  · by_cases h : y = x
    · simp [State.setPrev, h0, h]
    · simp [State.setPrev, h0, h]

/-- The lens has its place below `n`. -/
def Fits (s : State ι) (n x : ℕ) : Prop := sizeofLens ≤ (s.node x).total ∧ x + (s.node x).total ≤ n

/-- A block that is a lens. -/
def Owner.IsLens : Owner ι → Prop
  | .registering _ | .linked | .freeing _ | .unlinked _ | .leaked | .deferred _ => True
  | _ => False

omit [DecidableEq ι] in
theorem Fits.of_eq {n : ℕ} (h : Fits s n x) (ht : (s'.node x).total = (s.node x).total) :
    Fits s' n x := by
  unfold Fits
  rw [ht]
  exact h

omit [DecidableEq ι] in
theorem Fits.le {n m : ℕ} (h : Fits s n x) (hm : n ≤ m) : Fits s m x := ⟨h.1, h.2.trans hm⟩

omit [DecidableEq ι] in
theorem Owner.Published.isLens {o : Owner ι} (h : o.Published) : o.IsLens := by
  cases o <;> trivial

theorem ThreadStep.len_le {i : ι} (hs : ThreadStep s i s') : s.len ≤ s'.len := by
  cases hs with
  | alloc hi h0 hu hlen => exact hlen
  | deferAlloc hi h0 hu hlen => exact hlen
  | _ => exact le_rfl

theorem ThreadStep.fits {i j : ι} (hs : ThreadStep s i s') {y : ℕ} (hy : s.owner y = .unused)
    (hy' : s'.owner y = .registering j) : Fits s' s'.len y := by
  have hkeep : s'.owner = s.owner → Fits s' s'.len y := fun h => by
    rw [h, hy] at hy'
    cases hy'
  have hown : ∀ {x : ℕ} {o : Owner ι}, s'.owner = Function.update s.owner x o →
      o ≠ .registering j → Fits s' s'.len y := by
    intro x o h ho
    rw [h] at hy'
    by_cases hyx : y = x
    · rw [hyx, Function.update_self] at hy'
      exact absurd hy' ho
    · rw [Function.update_of_ne hyx, hy] at hy'
      cases hy'
  cases hs with
  | @alloc off total len node defer hi h0 hu hlen htot hfit hk hc =>
    by_cases hyo : y = off
    · subst hyo
      have hnode : ((((s.withMem len node defer).own y (.registering i)).go i (.made y)).node y).total =
          total := congrArg Node.total hc
      unfold Fits
      rw [hnode]
      exact ⟨htot, hfit⟩
    · have hy' : Function.update s.owner off (.registering i) y = .registering j := hy'
      rw [Function.update_of_ne hyo, hy] at hy'
      cases hy'
  | setHead | drop | free | delMissing | removeHead | deferFail | deferAlloc =>
    exact hown rfl fun hc => nomatch hc
  | @deferPush lens n old epoch hi hold =>
    have hy' : Function.update (Function.update s.owner n (.queued (some epoch))) lens (.deferred n) y =
      .registering j := hy'
    by_cases h1 : y = lens
    · rw [h1, Function.update_self] at hy'
      cases hy'
    · rw [Function.update_of_ne h1] at hy'
      by_cases h2 : y = n
      · rw [h2, Function.update_self] at hy'
        cases hy'
      · rw [Function.update_of_ne h2, hy] at hy'
        cases hy'
  | _ => exact hkeep rfl

theorem ThreadStep.total {i : ι} (hs : ThreadStep s i s') {y : ℕ} (hy : s.owner y ≠ .unused)
    (hy' : s'.owner y ≠ .unused) : (s'.node y).total = (s.node y).total := by
  cases hs with
  | alloc hi h0 hu hlen htot hfit hk => exact congrArg Node.total (hk.node y hy)
  | deferAlloc hi h0 hu hlen hk => exact congrArg Node.total (hk.node y hy)
  | drop hi hk => exact congrArg Node.total (hk.node y hy')
  | setNext hi => exact total_setNext ..
  | setPrev hi => exact total_setPrev ..
  | killNext hi => exact total_setPrev ..
  | killPrev hi => exact total_setNext ..
  | _ => rfl

omit [DecidableEq ι] in
theorem PollerStep.total (hs : PollerStep s s') {y : ℕ} (hy' : s'.owner y ≠ .unused) :
    (s'.node y).total = (s.node y).total := by
  cases hs with
  | freeLens hp hn hv hf hk => exact congrArg Node.total (hk.node y hy')
  | freeNode hp hf hk => exact congrArg Node.total (hk.node y hy')
  | _ => rfl

omit [DecidableEq ι] in
theorem PollerStep.isLens (hs : PollerStep s s') {y : ℕ} (hy : (s'.owner y).IsLens) :
    s'.owner y = s.owner y ∧ s'.len = s.len := by
  have hrel : ∀ {x : ℕ}, s'.owner = Function.update s.owner x .unused → s'.owner y = s.owner y := by
    intro x h
    by_cases hyx : y = x
    · rw [h, hyx, Function.update_self] at hy
      exact hy.elim
    · rw [h, Function.update_of_ne hyx]
  cases hs with
  | freeLens | freeNode => exact ⟨hrel rfl, rfl⟩
  | take hp =>
    refine ⟨?_, rfl⟩
    have hy : (takeList s.owner (s.opticsEpoch + 1) y).IsLens := hy
    show takeList s.owner (s.opticsEpoch + 1) y = s.owner y
    unfold takeList at hy ⊢
    split
    · next e he =>
      rw [he] at hy
      dsimp only at hy
      split_ifs at hy
      · exact hy.elim
      · exact hy.elim
    · rfl
  | _ => exact ⟨rfl, rfl⟩

omit [DecidableEq ι] in
theorem Owner.IsLens.used {o : Owner ι} (h : o.IsLens) : o ≠ .unused := by
  rintro rfl
  exact h

/-- **Every lens lies inside the file.** -/
theorem Reachable.fits (h : Reachable s) : ∀ y, (s.owner y).IsLens → Fits s s.len y := by
  suffices hI : (∃ L D, Inv s L D) ∧ ∀ y, (s.owner y).IsLens → Fits s s.len y from hI.2
  refine Lib.Runs.Reachable.invariant
    (I := fun s => (∃ L D, Inv s L D) ∧ ∀ y, (s.owner y).IsLens → Fits s s.len y)
    (fun s h0 => ⟨⟨_, _, .start h0⟩, fun y hy => ?_⟩) (fun s s' ⟨⟨L, D, hI⟩, hfit⟩ hs => ?_) h
  · rw [h0.owner y] at hy
    exact hy.elim
  · cases hs with
    | thread i hs =>
      obtain ⟨L', D', hI', he⟩ := hI.threadStep hs
      refine ⟨⟨L', D', hI'⟩, fun y hy => ?_⟩
      by_cases hu : s.owner y = .unused
      · -- a block that comes into use as a lens is just allocated
        obtain ⟨j, hown⟩ := he.owner
        have hstep := hown y
        rw [hu] at hstep
        generalize ho : s'.owner y = o at hstep hy
        cases hstep with
        | keep => exact hy.elim
        | alloc => exact hs.fits hu ho
        | hold => exact hy.elim
      · obtain ⟨j, hown⟩ := he.owner
        have hlens : (s.owner y).IsLens := by
          have hstep := hown y
          generalize s'.owner y = o' at hstep hy
          generalize s.owner y = o at hstep hu ⊢
          cases hstep with
          | keep => exact hy
          | alloc => exact absurd rfl hu
          | hold => exact absurd rfl hu
          | queue => exact hy.elim
          | _ => trivial
        exact ((hfit y hlens).of_eq (hs.total hu hy.used)).le hs.len_le
    | poller hs =>
      obtain ⟨D', hI'⟩ := hI.pollerStep hs
      refine ⟨⟨L, D', hI'⟩, fun y hy => ?_⟩
      obtain ⟨h1, h2⟩ := hs.isLens hy
      rw [h2]
      exact (hfit y (h1 ▸ hy)).of_eq (hs.total hy.used)

omit [DecidableEq ι] in
theorem Fits.covers {n : ℕ} (h : Fits s n x) : View.coversLens (.opened n) s.node x = true := by
  have hw : ∀ {l : ℕ}, x + l ≤ n → View.covers (.opened n) x l = true := by
    intro l hl
    have hmod := Nat.mod_le (x + l) (2 ^ 64)
    have hin : ¬ (x > n ∨ w64 (x + l) > n) := by
      unfold w64
      omega
    show (if x < 0 then none else if x > n ∨ w64 (x + l) > n then none else some x).isSome = true
    rw [if_neg (Nat.not_lt_zero x), if_neg hin]
    rfl
  obtain ⟨h1, h2⟩ := h
  unfold View.coversLens
  rw [hw (by omega), hw h2]
  rfl

/-- As long as nothing lies outside when the head is loaded, the traversal stays inside. -/
theorem Traversed.inside {n : ℕ} (h₀ : Inv s₀ L₀ D) (h : Traversed s₀ s)
    (hv : s₀.view = .opened n) (hfit : ∀ y ∈ L₀, Fits s₀ n y) : Inside s := by
  obtain ⟨L, D', -, hw⟩ := h.walk h₀
  have hall : ∀ y ∈ L₀, Fits s n y := by
    refine h.invariant (I := fun s => ∀ y ∈ L₀, Fits s n y) h₀ hfit
      fun s s' L D' hI hw _ hwalks hs hf y hy => (hf y hy).of_eq ?_
    have hpub := hw.published y hy
    cases hs with
    | thread i hs =>
      obtain ⟨L', D'', -, he⟩ := hI.threadStep hs
      exact hs.total hpub.isLens.used (he.published hpub).isLens.used
    | poller hs => exact hs.total ((hw.pollerStep hs hwalks).published y hy).isLens.used
  intro off seen hp h0
  rw [h.view h₀, hv]
  exact (hall off ((hw.at (.inl hp)).2 off (.here h0))).covers

/-! ### What a poll covers -/

/-- **A poll covers the region as long as it arrives at no lens outside its mapping**, and it arrives
at none when the file has not grown from the time the region was opened until the head is loaded. At
the end of any poll a lens that was in the list all along has been missed exactly if it is the lens
outside the mapping at which the traversal gave up, or lies behind that. -/
theorem poll_covers :
    CoversWhen (fun _ _ s : State ι => Inside s) ∧
    CoversWhen (fun s₁ s₀ _ : State ι => s₀.len = s₁.len) ∧
    ∀ (s₁ s₀ s s' : State ι) (x off : ℕ) (seen : List ℕ), Polled s₁ s₀ s x → s.poller.At off seen →
      PollerStep s s' → s'.poller = .idle →
      (off = 0 ↔ Inside s) ∧ (x ∈ seen ↔ ¬ Ahead s off x) := by
  have hcovers : CoversWhen (fun _ _ s : State ι => Inside s) := by
    intro s₁ s₀ s s' x off seen hp hin hat hs hidle
    obtain ⟨h1, h2⟩ := hs.ends_at hat hidle
    exact hp.mem_seen (h2.mpr hin ▸ h1)
  refine ⟨hcovers, fun s₁ s₀ s s' x off seen hp hlen hat hs hidle => ?_,
    fun s₁ s₀ s s' x off seen hp hat hs hidle => ?_⟩
  · refine hcovers s₁ s₀ s s' x off seen hp ?_ hat hs hidle
    obtain ⟨L₀, D, hI₀⟩ := hp.reachable_load.inv
    refine hp.traversed.inside hI₀ hp.before.last.1 fun y hy => ?_
    have hlisted : (s₀.owner y).IsLens := by
      rcases hI₀.listed y hy with h | ⟨j, h⟩
      · rw [h]
        trivial
      · rw [h]
        trivial
    exact hlen ▸ hp.reachable_load.fits y hlisted
  · obtain ⟨h1, h2⟩ := hs.ends_at hat hidle
    exact ⟨h2, hp.mem_seen_iff h1⟩

end Poll

end

/-! ### One poll that covers its lens, and one that misses it -/

/-- A poll of a region with one lens visits it. -/
theorem poll_covers_one : ∃ (s₁ s₀ s : State Unit) (seen : List ℕ), Polled s₁ s₀ s 704 ∧
    s.poller = .visit 0 seen ∧ 704 ∈ seen := by
  obtain ⟨s₁, hr, hI, -, -, -, hd, hp, -, hlen, hh, hn⟩ := registered_one
  have hx : Linked s₁.opened 704 :=
    ⟨[704], chain_cons.mpr ⟨hh, by decide, chain_nil.mpr hn⟩, by simp⟩
  have htake := PollerStep.take (s := s₁.opened) hp
  rw [show s₁.opened.epochDefers (s₁.opened.opticsEpoch + 1) = 0 from hd _] at htake
  have hbefore := ((During.refl (P := fun s => s.view = .opened s₁.len ∧ Linked s 704)
    ⟨rfl, hx⟩).step (.poller htake) ⟨rfl, hx⟩).step (.poller (.inc rfl)) ⟨rfl, hx⟩
  obtain ⟨s₀, hbefore, hp₀, hh₀, hn₀, hin, hx₀⟩ : ∃ s₀ : State Unit,
      During (fun s => s.view = .opened s₁.len ∧ Linked s 704) s₁.opened s₀ ∧ s₀.poller = .idle ∧
      s₀.lensHead = 704 ∧ s₀.next 704 = 0 ∧ s₀.view.coversLens s₀.node 704 = true ∧
      Linked s₀ 704 := by
    refine ⟨_, hbefore, rfl, hh, hn, ?_, hx⟩
    have hfit := hr.fits 704 ?_
    · exact hfit.covers
    · rcases hI.listed 704 (by simp) with h | ⟨j, h⟩
      · rw [h]
        trivial
      · rw [h]
        trivial
  have hvisit : PollerStep (s₀.poll (.visit 704 [])) (s₀.poll (.visited 704 [704])) :=
    .visit rfl (by decide) hin
  have hnext : PollerStep (s₀.poll (.visited 704 [704])) (s₀.poll (.visit 0 [704])) := by
    have h := PollerStep.next (s := s₀.poll (.visited 704 [704])) rfl
    rwa [show (s₀.poll (.visited 704 [704])).next 704 = 0 from hn₀] at h
  have hafter : During (fun s => s.poller.Walks ∧ Linked s 704) (s₀.poll (.visit s₀.lensHead []))
      (s₀.poll (.visit 0 [704])) := by
    rw [hh₀]
    exact ((During.refl ⟨⟨_, _, .inl rfl⟩, hx₀⟩).step (.poller hvisit) ⟨⟨_, _, .inr rfl⟩, hx₀⟩).step
      (.poller hnext) ⟨⟨_, _, .inl rfl⟩, hx₀⟩
  have hpolled : Polled s₁ s₀ (s₀.poll (.visit 0 [704])) 704 := ⟨hr, hp, hbefore, hp₀, hafter⟩
  have hinside : Inside (s₀.poll (.visit 0 [704])) := fun off seen h h0 => by
    cases h
    exact absurd rfl h0
  exact ⟨s₁, s₀, _, [704], hpolled, rfl,
    poll_covers.1 s₁ s₀ _ _ 704 0 [704] hpolled hinside (.inl rfl) (.done rfl) rfl⟩

/-- **A poll can miss a lens.** A lens is registered, a poller opens the region; the owner registers
another one, in memory for which the file grows. The traversal gives up at that one, which is the
first of the list. -/
theorem poll_misses : ¬ CoversWhen (fun _ _ _ : State Unit => True) := by
  intro hcovers
  obtain ⟨s₁, hr, hI, hi, hl, ho, hd, hp, -, hlen, -, -⟩ := registered_one
  -- the region is opened
  have hI₁ : Inv s₁.opened [704] (fun _ => []) :=
    hI.of_poll rfl rfl rfl (fun x => .inl rfl) (fun x _ _ => ⟨rfl, rfl⟩)
      (hI.queues.frame (fun _ _ hn => ⟨hn, rfl⟩) (fun _ _ hx => hx) rfl rfl)
  have hlinked : ∀ {s : State Unit} {L D}, Inv s L D → 704 ∈ L → Linked s 704 :=
    fun h hL => h.linked_iff.mpr hL
  -- the owner registers a lens beyond the length the file had
  have hgrow : s₁.opened.len ≤ 2 * regionDefaultLen := by
    show s₁.len ≤ _
    rw [hlen]
    decide
  obtain ⟨s₂, hrun, hI₂, -, -, -, hd₂, hp₂, hv₂, -, hh₂, -⟩ := hI₁.register (i := ()) (x := 1048544)
    (P := fun s => s.view = .opened s₁.len ∧ Linked s 704) hi hl (by decide)
    (ho 1048544 (by decide)) hgrow (show sizeofLens ≤ 82 by decide) (by decide)
    ⟨rfl, hlinked hI₁ (by simp)⟩
    fun s' L' D' hI' hsub hv => ⟨hv, hlinked hI' (hsub (by simp))⟩
  have hx₂ : Linked s₂ 704 := hlinked hI₂ (by simp)
  have hv₂ : s₂.view = .opened s₁.len := hv₂
  have hp₂ : s₂.poller = .idle := hp₂.trans hp
  -- the epoch is moved on
  have hnode : s₂.epochDefers (s₂.opticsEpoch + 1) = 0 := by
    rw [hd₂]
    exact hd _
  have htake := PollerStep.take hp₂
  rw [hnode] at htake
  have hrun₃ := (hrun.step (.poller htake) ⟨hv₂, hx₂⟩).step (.poller (.inc rfl)) ⟨hv₂, hx₂⟩
  -- the first lens of the list is not mapped
  have hmiss : s₂.view.coversLens s₂.node 1048544 = false := by
    rw [hv₂, hlen]
    unfold View.coversLens
    rw [show View.covers (.opened regionDefaultLen) 1048544 sizeofLens = false by decide]
    rfl
  obtain ⟨s₀, hbefore, hp₀, hh₀, hmiss₀, hx₀⟩ : ∃ s₀ : State Unit,
      During (fun s => s.view = .opened s₁.len ∧ Linked s 704) s₁.opened s₀ ∧ s₀.poller = .idle ∧
      s₀.lensHead = 1048544 ∧ s₀.view.coversLens s₀.node 1048544 = false ∧ Linked s₀ 704 :=
    ⟨_, hrun₃, rfl, hh₂, hmiss, hx₂⟩
  have hat : (s₀.poll (.visit s₀.lensHead [])).poller = .visit 1048544 [] := by
    rw [hh₀]
    rfl
  exact List.not_mem_nil (hcovers s₁ s₀ _ _ 704 1048544 []
    ⟨hr, hp, hbefore, hp₀, .refl ⟨⟨_, _, .inl rfl⟩, hx₀⟩⟩ trivial (.inl hat)
    (.fail hat (by decide) hmiss₀) rfl)

end Optics.Traversal
