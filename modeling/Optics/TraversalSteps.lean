import Optics.TraversalInv

/-! # Steps of a thread

The invariant of the list, the blocks and the lists of the epochs is kept by every step of a thread
(`Inv.threadStep`), with what the step means for a traversal (`Effect`). -/

namespace Optics.Traversal

open Optics.Base Optics.Lib.LinkedList

variable {ι : Type} {s s' : State ι} {L L' : List ℕ} {D D' : Option (Fin 2) → List ℕ} {i : ι}
  {t t' : Thread}

theorem ThreadOk.of_eq (h : ThreadOk s L i t) (ho : s'.owner = s.owner) (hn : s'.node = s.node)
    (hd : s'.defer = s.defer) : ThreadOk s' L i t :=
  h.frame (o := none) ⟨fun x j _ _ => by rw [ho], fun x j _ _ => by unfold State.prev; rw [hn],
    fun x j _ _ => by rw [hd], fun x j _ _ hx => hx⟩ (Option.some_ne_none i)

theorem Inv.edit_eq (h : Inv s L D) (hi : s.thread i = t) (hh : t.holds = true) :
    s.edit = t.edit := by
  unfold State.edit
  rw [(h.lock i).mp (hi ▸ hh)]
  show (s.thread i).edit = t.edit
  rw [hi]

/-- Lenses other threads free stay in the list, whatever lens of its own a thread takes off it. -/
theorem ne_of_freeing {j : ι} {x y : ℕ} (hji : j ≠ i) (hx : s.owner x = .freeing i)
    (hy : s.owner y = .freeing j) : y ≠ x :=
  ne_of_owner hy hx fun hc => hji (Owner.freeing.inj hc)

section Threads
variable [DecidableEq ι]

theorem Inv.quiet (h : Inv s L D) {l : Option ι} (hi : s.thread i = t)
    (hl : LockStep s ({ s with lock := l }.go i t') i t') (he : t.edit = .none)
    (he' : t'.edit = .none) (ht : ThreadOk s L i t → ThreadOk s L i t') :
    Inv ({ s with lock := l }.go i t') L D ∧ Effect s ({ s with lock := l }.go i t') L L :=
  h.of_still rfl hl (hi ▸ he) he' (fun _ => .keep _) ⟨fun _ _ _ => rfl, fun _ _ _ _ => rfl⟩ rfl
    h.null h.listed h.linked (ThreadOk.of_eq (ht (hi ▸ h.thread i)) rfl rfl rfl)
    (h.queues.frame (fun _ _ hn => ⟨hn, rfl⟩) (fun _ _ hx => hx) rfl rfl)

/-- A step that passes a block to another use. -/
theorem Inv.of_own (h : Inv s L D) {x : ℕ} {o : Owner ι} (hi : s.thread i = t)
    (hown : s'.owner = Function.update s.owner x o) (ht : s'.thread = Function.update s.thread i t')
    (hlock : s'.lock = s.lock) (hh : t'.holds = t.holds) (he : t.edit = .none)
    (he' : t'.edit = .none) (hstep : OwnerStep i (s.owner x) o) (hstill : Still s s' i)
    (hhead : s'.lensHead = s.lensHead) (hdefers : s'.epochDefers = s.epochDefers)
    (hpoll : s'.poller = s.poller) (hx0 : x ≠ 0) (hL : x ∈ L → o.Listed)
    (hlinked : o = .linked → x ∈ L) (hself : ThreadOk s' L i t') :
    Inv s' L D ∧ Effect s s' L L := by
  have hall : ∀ y, OwnerStep i (s.owner y) (s'.owner y) := fun y => by
    rw [hown]
    exact hstep.own y
  refine h.of_still ht (.keep hlock (hi ▸ hh)) (hi ▸ he) he' hall hstill hhead ?_ (fun y hy => ?_)
    (fun y hy => ?_) hself (h.queues.of_owner hall (fun n q hn => ?_) hdefers hpoll)
  · rw [hown, Function.update_of_ne hx0.symm]
    exact h.null
  · rw [hown]
    by_cases hyx : y = x
    · rw [hyx, Function.update_self]
      exact hL (hyx ▸ hy)
    · rw [Function.update_of_ne hyx]
      exact h.listed y hy
  · rw [hown] at hy
    by_cases hyx : y = x
    · rw [hyx, Function.update_self] at hy
      exact hyx ▸ hlinked hy
    · rw [Function.update_of_ne hyx] at hy
      exact h.linked y hy
  · have hq := hall n
    rw [hn] at hq
    refine hstill.defer n (by rw [hn]; exact fun hc => nomatch hc) ?_
      (by rw [hn]; exact fun hc => nomatch hc)
    generalize s'.owner n = o' at hq ⊢
    cases hq
    exact fun hc => nomatch hc

theorem Inv.of_edit (h : Inv s L D) (hi : s.thread i = t)
    (ht : s'.thread = Function.update s.thread i t')
    (hlock : s'.lock = s.lock) (hh : t.holds = true) (hh' : t'.holds = true)
    (hlist : ListOf s'.next s'.prev s'.lensHead L' t'.edit)
    (hown : ∀ x, OwnerStep i (s.owner x) (s'.owner x)) (h0 : s'.owner 0 = .unused)
    (hlisted : ∀ x ∈ L', (s'.owner x).Listed) (hlinked : ∀ x, s'.owner x = .linked → x ∈ L')
    (hself : ThreadOk s' L' i t') (hdefer : s'.defer = s.defer)
    (hprev : ∀ x j, j ≠ i → s.owner x = .registering j → s'.prev x = s.prev x)
    (hL : ∀ x j, j ≠ i → s.owner x = .freeing j → x ∈ L → x ∈ L')
    (hdefers : s'.epochDefers = s.epochDefers) (hpoll : s'.poller = s.poller) : Inv s' L' D := by
  have hl : LockStep s s' i t' := .keep hlock (by rw [hi, hh, hh'])
  refine h.of_step ht hl h0 ?_ hlisted hlinked hself
    (.of_owner hown hprev (fun x j _ _ => by rw [hdefer]) hL)
    (h.queues.of_owner hown (fun n q _ => by rw [hdefer]) hdefers hpoll)
  rw [hl.edit h.lock ht, hh', if_pos rfl]
  exact hlist

/-! ### Registering -/

theorem Inv.alloc (h : Inv s L D) {x total len : ℕ} {node : ℕ → Node} {defer : ℕ → Defer}
    (hi : s.thread i = .idle) (h0 : x ≠ 0) (hu : s.owner x = .unused)
    (hk : Kept s (s.withMem len node defer)) (hc : node x = ⟨0, 0, total⟩) :
    Inv (((s.withMem len node defer).own x (.registering i)).go i (.made x)) L D ∧
      Effect s (((s.withMem len node defer).own x (.registering i)).go i (.made x)) L L := by
  refine h.of_own hi rfl rfl rfl rfl rfl rfl (by rw [hu]; exact .alloc)
    ⟨fun x hx _ => hk.node x hx, fun x hx _ _ => hk.defer x hx⟩ rfl rfl rfl h0 (fun hx => ?_)
    (fun hc => nomatch hc) ⟨Function.update_self .., congrArg Node.prev hc⟩
  exact absurd hx (h.notMem hu nofun nofun)

theorem Inv.setNext (h : Inv s L D) {x : ℕ} (hi : s.thread i = .setNext x) :
    Inv ((s.setNext x s.lensHead).go i (.setPrev x)) L D ∧
      Effect s ((s.setNext x s.lensHead).go i (.setPrev x)) L L := by
  have hok := h.thread i
  rw [hi] at hok
  obtain ⟨hx, hprev⟩ := hok
  have hxL := h.notMem hx nofun nofun
  have hx0 : x ≠ 0 := h.ne_zero hx nofun
  have hnext : State.next ((s.setNext x s.lensHead).go i (.setPrev x)) =
      Function.update s.next x s.lensHead := (next_setNext s x _).trans (if_neg hx0)
  have hp : State.prev ((s.setNext x s.lensHead).go i (.setPrev x)) = s.prev := prev_setNext s x _
  refine ⟨h.of_edit hi rfl rfl rfl rfl ?_ (fun y => .keep _) h.null h.listed h.linked hx rfl
    (fun y j _ _ => by rw [hp]) (fun _ _ _ _ hy => hy) rfl rfl,
    ⟨i, fun _ => .keep _⟩, fun _ hy => .inl hy, .inl fun y hy => ?_⟩
  · rw [hnext, hp]
    have hlist := h.list
    rw [h.edit_eq hi rfl] at hlist
    exact hlist.setNext hxL hprev
  · rw [hnext, Function.update_of_ne]
    rintro rfl
    rw [hx] at hy
    exact hy.elim

theorem Inv.setPrev (h : Inv s L D) {x : ℕ} (hi : s.thread i = .setPrev x) :
    Inv ((s.setPrev (s.next x) x).go i (.setHead x)) L D ∧
      Effect s ((s.setPrev (s.next x) x).go i (.setHead x)) L L := by
  have hx := h.thread i
  rw [hi] at hx
  have hlist := h.list
  rw [h.edit_eq hi rfl] at hlist
  have hn : State.next ((s.setPrev (s.next x) x).go i (.setHead x)) = s.next := next_setPrev s _ _
  have hp : State.prev ((s.setPrev (s.next x) x).go i (.setHead x)) =
      if s.next x = 0 then s.prev else Function.update s.prev (s.next x) x := prev_setPrev s _ _
  refine ⟨h.of_edit hi rfl rfl rfl rfl ?_ (fun y => .keep _) h.null h.listed h.linked hx rfl
    (fun y j _ hy => ?_) (fun _ _ _ _ hy => hy) rfl rfl,
    ⟨i, fun _ => .keep _⟩, fun _ hy => .inl hy, .inl fun y _ => by rw [hn]⟩
  · rw [hn, hp]
    exact hlist.setPrev (h.notMem hx nofun nofun)
  · rw [hp]
    by_cases h0 : s.next x = 0
    · rw [if_pos h0]
    · rw [if_neg h0, Function.update_of_ne]
      -- the old head is in the list, and not a lens somebody registers
      rintro rfl
      obtain ⟨l, rfl, -⟩ := hlist.chain.uncons (hlist.2.1 ▸ h0)
      exact h.notMem hy nofun nofun (by rw [hlist.2.1]; exact List.mem_cons_self)

theorem Inv.setHead (h : Inv s L D) {x : ℕ} (hi : s.thread i = .setHead x) :
    Inv (({ s with lensHead := x }.own x .linked).go i .release) (x :: L) D ∧
      Effect s (({ s with lensHead := x }.own x .linked).go i .release) L (x :: L) := by
  have hx := h.thread i
  rw [hi] at hx
  have hx : s.owner x = .registering i := hx
  have hlist := h.list
  rw [h.edit_eq hi rfl] at hlist
  have hx0 : x ≠ 0 := h.ne_zero hx nofun
  have hown : ∀ y, OwnerStep i (s.owner y)
      ((({ s with lensHead := x }.own x .linked).go i .release).owner y) :=
    OwnerStep.own (by rw [hx]; exact .link)
  have hne : ∀ y, y ≠ x → (({ s with lensHead := x }.own x .linked).go i .release).owner y =
      s.owner y := fun y hy => Function.update_of_ne hy ..
  have hself : (({ s with lensHead := x }.own x .linked).go i .release).owner x = .linked :=
    Function.update_self ..
  refine ⟨h.of_edit hi rfl rfl rfl rfl (hlist.setHead hx0) hown ?_ (fun y hy => ?_) (fun y hy => ?_)
    trivial rfl (fun _ _ _ _ => rfl) (fun _ _ _ _ hy => List.mem_cons_of_mem _ hy) rfl rfl,
    ⟨i, hown⟩, fun y hy => ?_, .inl fun _ _ => rfl⟩
  · rw [hne 0 hx0.symm]
    exact h.null
  · by_cases hyx : y = x
    · rw [hyx, hself]
      exact .inl rfl
    · rw [hne y hyx]
      exact h.listed y ((List.mem_cons.mp hy).resolve_left hyx)
  · by_cases hyx : y = x
    · rw [hyx]
      exact List.mem_cons_self
    · rw [hne y hyx] at hy
      exact List.mem_cons_of_mem _ (h.linked y hy)
  · rcases List.mem_cons.mp hy with rfl | hy
    · exact .inr ⟨i, hx⟩
    · exact .inl hy

/-! ### Freeing -/

theorem Inv.killNext (h : Inv s L D) {x : ℕ} (hi : s.thread i = .killNext x) :
    Inv ((s.setPrev (s.next x) (s.prev x)).go i (.killPrev x)) L D ∧
      Effect s ((s.setPrev (s.next x) (s.prev x)).go i (.killPrev x)) L L := by
  have hok := h.thread i
  rw [hi] at hok
  obtain ⟨hx, hxL⟩ := hok
  have hlist := h.list
  rw [h.edit_eq hi rfl] at hlist
  have hn : State.next ((s.setPrev (s.next x) (s.prev x)).go i (.killPrev x)) = s.next :=
    next_setPrev s _ _
  have hp : State.prev ((s.setPrev (s.next x) (s.prev x)).go i (.killPrev x)) =
      if s.next x = 0 then s.prev else Function.update s.prev (s.next x) (s.prev x) :=
    prev_setPrev s _ _
  refine ⟨h.of_edit hi rfl rfl rfl rfl ?_ (fun y => .keep _) h.null h.listed h.linked ⟨hx, hxL⟩ rfl
    (fun y j _ hy => ?_) (fun _ _ _ _ hy => hy) rfl rfl,
    ⟨i, fun _ => .keep _⟩, fun _ hy => .inl hy, .inl fun y _ => by rw [hn]⟩
  · rw [hn, hp]
    exact hlist.killNext hxL
  · rw [hp]
    by_cases h0 : s.next x = 0
    · rw [if_pos h0]
    · rw [if_neg h0, Function.update_of_ne]
      rintro rfl
      rcases DSeg.next_mem hlist hxL with h1 | h1
      · exact h0 h1
      · exact h.notMem hy nofun nofun h1

theorem Inv.killPrev (h : Inv s L D) {x : ℕ} (hi : s.thread i = .killPrev x) :
    ∃ L', Inv ((s.setNext (s.prev x) (s.next x)).go i (.removeHead x)) L' D ∧
      Effect s ((s.setNext (s.prev x) (s.next x)).go i (.removeHead x)) L L' := by
  have hok := h.thread i
  rw [hi] at hok
  obtain ⟨hx, hxL⟩ := hok
  have hlist := h.list
  rw [h.edit_eq hi rfl] at hlist
  have hn : State.next ((s.setNext (s.prev x) (s.next x)).go i (.removeHead x)) =
      if s.prev x = 0 then s.next else Function.update s.next (s.prev x) (s.next x) :=
    next_setNext s _ _
  have hp : State.prev ((s.setNext (s.prev x) (s.next x)).go i (.removeHead x)) = s.prev :=
    prev_setNext s _ _
  by_cases h0 : s.prev x = 0
  · -- the first lens of the list: the head is still to be stored
    rw [if_pos h0] at hn
    refine ⟨L, h.of_edit hi rfl rfl rfl rfl ?_ (fun y => .keep _) h.null h.listed h.linked hx rfl
      (fun y j _ _ => by rw [hp]) (fun _ _ _ _ hy => hy) rfl rfl,
      ⟨i, fun _ => .keep _⟩, fun _ hy => .inl hy, .inl fun y _ => by rw [hn]⟩
    rw [hn, hp]
    exact hlist.killPrev.1 h0
  · rw [if_neg h0] at hn
    obtain ⟨l₁, l₂, hL, hpL, hpx, hlist'⟩ := hlist.killPrev.2 h0
    have hnd := hlist.chain.nodup
    rw [hL] at hnd
    have hxl : x ∉ l₁ ++ l₂ := (List.nodup_cons.mp (List.nodup_middle.mp hnd)).1
    have hmem : ∀ y, y ∈ l₁ ++ l₂ ↔ y ∈ L ∧ y ≠ x := by
      intro y
      rw [hL]
      simp only [List.mem_append, List.mem_cons] at hxl ⊢
      constructor
      · rintro (hy | hy)
        · exact ⟨.inl hy, fun hc => hxl (.inl (hc ▸ hy))⟩
        · exact ⟨.inr (.inr hy), fun hc => hxl (.inr (hc ▸ hy))⟩
      · rintro ⟨hy | hy | hy, hne⟩
        · exact .inl hy
        · exact absurd hy hne
        · exact .inr hy
    refine ⟨l₁ ++ l₂, h.of_edit hi rfl rfl rfl rfl ?_ (fun y => .keep _) h.null
      (fun y hy => h.listed y ((hmem y).mp hy).1) (fun y hy => (hmem y).mpr ⟨h.linked y hy, ?_⟩) hx
      rfl (fun y j _ _ => by rw [hp]) (fun y j hj hy hyL => ?_) rfl rfl,
      ⟨i, fun _ => .keep _⟩, fun y hy => .inl ((hmem y).mp hy).1,
      .inr ⟨s.prev x, ((hmem _).mp hpL).1, by rwa [hpx], by rwa [hpx], fun y _ => ?_⟩⟩
    · rw [hn, hp]
      exact hlist'
    · rintro rfl
      have hy : s.owner y = .linked := hy
      rw [hx] at hy
      cases hy
    · exact (hmem y).mpr ⟨hyL, ne_of_freeing hj hx hy⟩
    · rw [hn, hpx, Function.update_apply]

theorem Inv.removeHead (h : Inv s L D) {x : ℕ} (hi : s.thread i = .removeHead x) :
    ∃ L', Inv (({ s with lensHead := if s.lensHead = x then s.next x else s.lensHead }.own x
        (.unlinked i)).go i (.removed x)) L' D ∧
      Effect s (({ s with lensHead := if s.lensHead = x then s.next x else s.lensHead }.own x
        (.unlinked i)).go i (.removed x)) L L' := by
  have hx := h.thread i
  rw [hi] at hx
  have hx : s.owner x = .freeing i := hx
  have hlist := h.list
  rw [h.edit_eq hi rfl] at hlist
  obtain ⟨L', hmem, hlist'⟩ := hlist.removeHead
  set s₁ : State ι := ({ s with
    lensHead := if s.lensHead = x then s.next x else s.lensHead }.own x (.unlinked i)).go i
      (.removed x) with hs₁
  have hown : ∀ y, OwnerStep i (s.owner y) (s₁.owner y) :=
    OwnerStep.own (by rw [hx]; exact .unlink)
  have hne : ∀ y, y ≠ x → s₁.owner y = s.owner y := fun y hy => Function.update_of_ne hy ..
  have hself : s₁.owner x = .unlinked i := Function.update_self ..
  have hx0 : x ≠ 0 := h.ne_zero hx nofun
  refine ⟨L', h.of_edit hi rfl rfl rfl rfl hlist' hown ?_ (fun y hy => ?_) (fun y hy => ?_) hself
    rfl (fun _ _ _ _ => rfl) (fun y j hj hy hyL => ?_) rfl rfl, ⟨i, hown⟩,
    fun y hy => .inl ((hmem y).mp hy).1, .inl fun _ _ => rfl⟩
  · rw [hne 0 hx0.symm]
    exact h.null
  · obtain ⟨hyL, hyx⟩ := (hmem y).mp hy
    rw [hne y hyx]
    exact h.listed y hyL
  · by_cases hyx : y = x
    · rw [hyx, hself] at hy
      cases hy
    · rw [hne y hyx] at hy
      exact (hmem y).mpr ⟨h.linked y hy, hyx⟩
  · exact (hmem y).mpr ⟨hyL, ne_of_freeing hj hx hy⟩

theorem Inv.setDeferNext (h : Inv s L D) {x n v : ℕ} {e : Fin 2} (hi : s.thread i = t)
    (hh : t.holds = false) (he : t.edit = .none)
    (hok : s.owner x = .unlinked i ∧ s.owner n = .held i ∧ (s.defer n).off = x) :
    Inv ((s.setDeferNext n v).go i (.deferPush x n e v)) L D ∧
      Effect s ((s.setDeferNext n v).go i (.deferPush x n e v)) L L := by
  obtain ⟨hx, hn, hoff⟩ := hok
  have hdefer : ∀ y, y ≠ n → ((s.setDeferNext n v).go i (.deferPush x n e v)).defer y = s.defer y :=
    fun y hy => Function.update_of_ne hy ..
  have hself : ((s.setDeferNext n v).go i (.deferPush x n e v)).defer n =
      { s.defer n with next := v } := Function.update_self ..
  refine h.of_still rfl (.keep rfl (by rw [hi, hh]; rfl)) (hi ▸ he) rfl (fun y => .keep _)
    ⟨fun _ _ _ => rfl, fun y _ _ hy => hdefer y fun hc => hy (hc ▸ hn)⟩ rfl h.null h.listed h.linked
    ⟨hx, hn, ?_, ?_⟩ (h.queues.of_owner (i := i) (fun y => .keep _) (fun m q hm => ?_) rfl rfl)
  · rw [hself]
    exact hoff
  · unfold State.deferNext
    rw [hself]
  · refine hdefer m fun hc => ?_
    rw [hc, hn] at hm
    cases hm

omit [DecidableEq ι] in
/-- A node that has been pushed is the first of the list of its epoch, and its lens is on it. -/
theorem Queues.push (h : Queues s D) {x n : ℕ} {e : Fin 2} (hx : s.owner x = .unlinked i)
    (hn : s.owner n = .held i) (hn0 : n ≠ 0) (hoff : (s.defer n).off = x)
    (hnext : s.deferNext n = s.epochDefers e) (hox : s'.owner x = .deferred n)
    (hon : s'.owner n = .queued (some e)) (hoy : ∀ y, y ≠ x → y ≠ n → s'.owner y = s.owner y)
    (hdefer : s'.defer = s.defer) (he : s'.epochDefers = Function.update s.epochDefers e n)
    (hp : s'.poller = s.poller) :
    Queues s' (Function.update D (some e) (n :: D (some e))) := by
  have hlink : s'.deferNext = s.deferNext := by
    unfold State.deferNext
    rw [hdefer]
  -- the other nodes and their lenses are neither this node nor this lens
  have hnode : ∀ m q, s.owner m = .queued q → s'.owner m = .queued q := fun m q hm =>
    (hoy m (ne_of_owner hm hx nofun) (ne_of_owner hm hn nofun)).trans hm
  have hlens : ∀ q, ∀ m ∈ D q, s'.owner (s.defer m).off = .deferred m := fun q m hm => by
    have h2 := h.lens q m hm
    exact (hoy _ (ne_of_owner h2 hx nofun) (ne_of_owner h2 hn nofun)).trans h2
  have hmem : ∀ q m, m ∈ Function.update D (some e) (n :: D (some e)) q →
      m = n ∧ q = some e ∨ m ∈ D q := by
    intro q m hm
    by_cases hq : q = some e
    · rw [hq, Function.update_self] at hm
      rw [hq]
      exact (List.mem_cons.mp hm).imp (fun hm => ⟨hm, rfl⟩) id
    · rw [Function.update_of_ne hq] at hm
      exact .inr hm
  refine ⟨fun e' => ?_, ?_, fun q m hm => ?_, fun q m hm => ?_⟩
  · rw [hlink, he]
    by_cases hee : e' = e
    · rw [hee, Function.update_self, Function.update_self]
      refine chain_cons.mpr ⟨rfl, hn0, ?_⟩
      rw [hnext]
      exact h.list e
    · rw [Function.update_of_ne fun hc => hee (Option.some.inj hc), Function.update_of_ne hee]
      exact h.list e'
  · rw [Function.update_of_ne (Option.some_ne_none e).symm, hp]
    have ht := h.taken
    cases hpoll : s.poller with
    | drained m =>
      rw [hpoll] at ht
      exact ⟨hnode m none ht.1, ht.2.1, by rw [hlink]; exact ht.2.2⟩
    | drain m =>
      rw [hpoll] at ht
      show Chain s'.deferNext m _
      rw [hlink]
      exact ht
    | _ => trivial
  · rcases hmem q m hm with ⟨rfl, rfl⟩ | hm
    · exact hon
    · exact hnode m q (h.node q m hm)
  · rw [hdefer]
    rcases hmem q m hm with ⟨rfl, rfl⟩ | hm
    · rw [hoff]
      exact hox
    · exact hlens q m hm

/-- **The push on `epoch_defers`.** -/
theorem Inv.deferPush (h : Inv s L D) {x n old : ℕ} {e : Fin 2}
    (hi : s.thread i = .deferPush x n e old) (hold : s.epochDefers e = old) :
    ∃ D', Inv ((({ s with epochDefers := Function.update s.epochDefers e n }.own n
        (.queued (some e))).own x (.deferred n)).go i .idle) L D' ∧
      Effect s ((({ s with epochDefers := Function.update s.epochDefers e n }.own n
        (.queued (some e))).own x (.deferred n)).go i .idle) L L := by
  have hok := h.thread i
  rw [hi] at hok
  obtain ⟨hx, hn, hoff, hnext⟩ := hok
  set s₁ : State ι := (({ s with epochDefers := Function.update s.epochDefers e n }.own n
    (.queued (some e))).own x (.deferred n)).go i .idle with hs₁
  have hxn : x ≠ n := ne_of_owner hx hn nofun
  have hn0 : n ≠ 0 := h.ne_zero hn nofun
  have hx0 : x ≠ 0 := h.ne_zero hx nofun
  have hox : s₁.owner x = .deferred n := Function.update_self ..
  have hon : s₁.owner n = .queued (some e) :=
    (Function.update_of_ne hxn.symm ..).trans (Function.update_self ..)
  have hoy : ∀ y, y ≠ x → y ≠ n → s₁.owner y = s.owner y := fun y hyx hyn =>
    (Function.update_of_ne hyx ..).trans (Function.update_of_ne hyn ..)
  have hown : ∀ y, OwnerStep i (s.owner y) (s₁.owner y) := by
    intro y
    by_cases hyx : y = x
    · rw [hyx, hx, hox]
      exact .defer n
    · by_cases hyn : y = n
      · rw [hyn, hn, hon]
        exact .queue e
      · rw [hoy y hyx hyn]
        exact .keep _
  refine ⟨Function.update D (some e) (n :: D (some e)), h.of_still rfl (.keep rfl (by rw [hi]; rfl))
    (by rw [hi]; rfl) rfl hown ⟨fun _ _ _ => rfl, fun _ _ _ _ => rfl⟩ rfl ?_ (fun y hy => ?_)
    (fun y hy => ?_) trivial
    (h.queues.push hx hn hn0 hoff (hnext.trans hold.symm) hox hon hoy rfl rfl rfl)⟩
  · rw [hoy 0 hx0.symm hn0.symm]
    exact h.null
  · rw [hoy y (fun hc => h.notMem hx nofun nofun (hc ▸ hy))
      fun hc => h.notMem hn nofun nofun (hc ▸ hy)]
    exact h.listed y hy
  · by_cases hyx : y = x
    · rw [hyx, hox] at hy
      cases hy
    · by_cases hyn : y = n
      · rw [hyn, hon] at hy
        cases hy
      · rw [hoy y hyx hyn] at hy
        exact h.linked y hy

/-! ### All steps -/

/-- **Every step of a thread keeps the invariant.** -/
theorem Inv.threadStep (h : Inv s L D) (hs : ThreadStep s i s') :
    ∃ L' D', Inv s' L' D' ∧ Effect s s' L L' := by
  have hok := h.thread i
  cases hs with
  | alloc hi h0 hu hlen htot hfit hk hc => exact ⟨L, D, h.alloc hi h0 hu hk hc⟩
  | lockPut hi hl => exact ⟨L, D, h.quiet hi (.acquire hl rfl rfl) rfl rfl fun h => h⟩
  | put hi => exact ⟨L, D, h.quiet hi (.keep rfl (by rw [hi]; rfl)) rfl rfl fun h => h⟩
  | putTaken hi => exact ⟨L, D, h.quiet hi (.keep rfl (by rw [hi]; rfl)) rfl rfl fun h => h⟩
  | setNext hi => exact ⟨L, D, h.setNext hi⟩
  | setPrev hi => exact ⟨L, D, h.setPrev hi⟩
  | setHead hi => exact ⟨_, D, h.setHead hi⟩
  | release hi => exact ⟨L, D, h.quiet hi (.release (by rw [hi]; rfl) rfl rfl) rfl rfl fun h => h⟩
  | unlockTaken hi =>
    exact ⟨L, D, h.quiet hi (.release (by rw [hi]; rfl) rfl rfl) rfl rfl fun h => h⟩
  | @drop x node defer hi hk =>
    rw [hi] at hok
    have hx : s.owner x = .registering i := hok.1
    have hne : ∀ y, (s.own x .unused).owner y ≠ .unused → y ≠ x := fun y hy hc => by
      rw [hc] at hy
      exact hy (Function.update_self ..)
    exact ⟨L, D, h.of_own hi rfl rfl rfl rfl rfl rfl (by rw [hx]; exact .drop)
      ⟨fun y _ hy => hk.node y hy, fun y _ hy _ => hk.defer y hy⟩ rfl rfl rfl
      (h.ne_zero hx nofun)
      (fun hxL => absurd hxL (h.notMem hx nofun nofun)) (fun hc => nomatch hc) trivial⟩
  | @free x hi hx =>
    exact ⟨L, D, h.of_own hi rfl rfl rfl rfl rfl rfl (by rw [hx]; exact .free)
      ⟨fun _ _ _ => rfl, fun _ _ _ _ => rfl⟩ rfl rfl rfl
      (h.ne_zero hx nofun) (fun _ => .inr ⟨i, rfl⟩)
      (fun hc => nomatch hc) ⟨Function.update_self .., h.linked x hx⟩⟩
  | lockDel hi hl => exact ⟨L, D, h.quiet hi (.acquire hl rfl rfl) rfl rfl fun h => h⟩
  | del hi => exact ⟨L, D, h.quiet hi (.keep rfl (by rw [hi]; rfl)) rfl rfl fun h => h⟩
  | @delMissing x hi =>
    rw [hi] at hok
    obtain ⟨hx, hxL⟩ := hok
    exact ⟨L, D, h.of_own hi rfl rfl rfl rfl rfl rfl (by rw [hx]; exact .back)
      ⟨fun _ _ _ => rfl, fun _ _ _ _ => rfl⟩ rfl rfl rfl
      (h.ne_zero hx nofun) (fun _ => .inl rfl) (fun _ => hxL)
      trivial⟩
  | killNext hi => exact ⟨L, D, h.killNext hi⟩
  | killPrev hi =>
    obtain ⟨L', h'⟩ := h.killPrev hi
    exact ⟨L', D, h'⟩
  | removeHead hi =>
    obtain ⟨L', h'⟩ := h.removeHead hi
    exact ⟨L', D, h'⟩
  | unlockRemoved hi =>
    exact ⟨L, D, h.quiet hi (.release (by rw [hi]; rfl) rfl rfl) rfl rfl fun h => h⟩
  | @deferFail x hi =>
    rw [hi] at hok
    have hx : s.owner x = .unlinked i := hok
    exact ⟨L, D, h.of_own hi rfl rfl rfl rfl rfl rfl (by rw [hx]; exact .leak)
      ⟨fun _ _ _ => rfl, fun _ _ _ _ => rfl⟩ rfl rfl rfl
      (h.ne_zero hx nofun) (fun hxL => absurd hxL (h.notMem hx nofun nofun))
      (fun hc => nomatch hc) trivial⟩
  | @deferAlloc x n len node defer hi h0 hu hlen hk hc =>
    rw [hi] at hok
    have hx : s.owner x = .unlinked i := hok
    have hxn : x ≠ n := ne_of_owner hx hu nofun
    exact ⟨L, D, h.of_own hi rfl rfl rfl rfl rfl rfl (by rw [hu]; exact .hold)
      ⟨fun x hx _ => hk.node x hx, fun x hx _ _ => hk.defer x hx⟩ rfl rfl rfl h0
      (fun hnL => absurd hnL (h.notMem hu nofun nofun)) (fun hc => nomatch hc)
      ⟨(Function.update_of_ne hxn ..).trans hx, Function.update_self .., congrArg Defer.off hc⟩⟩
  | deferEpoch hi => exact ⟨L, D, h.quiet hi (.keep rfl (by rw [hi]; rfl)) rfl rfl fun h => h⟩
  | deferLoad hi =>
    rw [hi] at hok
    exact ⟨L, D, h.setDeferNext hi rfl rfl hok⟩
  | deferRetry hi =>
    rw [hi] at hok
    exact ⟨L, D, h.setDeferNext hi rfl rfl ⟨hok.1, hok.2.1, hok.2.2.1⟩⟩
  | deferPush hi hold =>
    obtain ⟨D', h'⟩ := h.deferPush hi hold
    exact ⟨L, D', h'⟩

end Threads

end Optics.Traversal
