import Optics.TraversalSteps

/-! # Steps of the poller

The invariant is kept by every step of the poller (`Inv.pollerStep`), and so holds in every reachable
state (`Reachable.inv`). -/

namespace Optics.Traversal

open Optics.Base Optics.Lib.LinkedList

variable {ι : Type} {s s' : State ι} {L L' : List ℕ} {D D' : Option (Fin 2) → List ℕ}

/-- A step of the poller: it releases blocks of the lists of the epochs, and moves the nodes of a
list to its own. -/
theorem Inv.of_poll (h : Inv s L D) (hthread : s'.thread = s.thread) (hlock : s'.lock = s.lock)
    (hhead : s'.lensHead = s.lensHead)
    (howner : ∀ x, s'.owner x = s.owner x ∨
      ((∃ n, s.owner x = .deferred n) ∨ ∃ q, s.owner x = .queued q) ∧
        (s'.owner x = .unused ∨ ∃ q, s'.owner x = .queued q))
    (hkept : ∀ x, s.owner x ≠ .unused → s'.owner x = s.owner x →
      s'.node x = s.node x ∧ s'.defer x = s.defer x) (hq : Queues s' D') : Inv s' L D' := by
  have hsame : ∀ x, (∀ n, s.owner x ≠ .deferred n) → (∀ q, s.owner x ≠ .queued q) →
      s'.owner x = s.owner x := fun x h1 h2 =>
    (howner x).resolve_right fun hc => hc.1.elim (fun ⟨n, hn⟩ => h1 n hn) fun ⟨q, hq⟩ => h2 q hq
  have hthr : ∀ x j, (s.owner x).thread = some j → s'.owner x = s.owner x ∧
      s.owner x ≠ .unused := by
    intro x j hx
    obtain ⟨h0, h1, h2⟩ := Owner.of_thread hx
    exact ⟨hsame x h1 h2, h0⟩
  have hlisted : ∀ x, (s.owner x).Listed → s'.owner x = s.owner x ∧ s.owner x ≠ .unused := by
    intro x hx
    obtain ⟨h0, h1, h2⟩ := hx.uses
    exact ⟨hsame x h1 h2, h0⟩
  have hedit : s'.edit = s.edit := by
    unfold State.edit
    rw [hlock, hthread]
  have hnode : ∀ x, x ∈ L ∨ s.edit.IsOf x → s'.node x = s.node x := by
    rintro x (hx | hx)
    · obtain ⟨h1, h2⟩ := hlisted x (h.listed x hx)
      exact (hkept x h2 h1).1
    · unfold State.edit at hx
      cases hlk : s.lock with
      | none =>
        rw [hlk] at hx
        cases hx
      | some j =>
        rw [hlk] at hx
        obtain ⟨h1, h2⟩ := hthr x j ((h.thread j).edit_owner hx)
        exact (hkept x h2 h1).1
  have hframe : Frame s s' L L none := by
    refine ⟨fun x j _ hx => (hthr x j hx).1, fun x j _ hx => ?_, fun x j _ hx => ?_,
      fun x j _ _ hx => hx⟩
    · obtain ⟨h1, h2⟩ := hthr x j (by rw [hx]; rfl)
      exact congrArg Node.prev (hkept x h2 h1).1
    · obtain ⟨h1, h2⟩ := hthr x j (by rw [hx]; rfl)
      exact (hkept x h2 h1).2
  refine ⟨?_, ?_, fun x hx => ?_, fun x hx => ?_, fun j => ?_, fun j => ?_, hq⟩
  · rcases howner 0 with h0 | ⟨h0 | h0, -⟩
    · rw [h0]
      exact h.null
    · obtain ⟨n, hn⟩ := h0
      rw [h.null] at hn
      cases hn
    · obtain ⟨q, hq⟩ := h0
      rw [h.null] at hq
      cases hq
  · rw [hedit, hhead]
    exact h.list.congr (fun y hy => congrArg Node.next (hnode y hy))
      fun y hy => congrArg Node.prev (hnode y hy)
  · rw [(hlisted x (h.listed x hx)).1]
    exact h.listed x hx
  · rcases howner x with h1 | ⟨-, h1 | ⟨q, h1⟩⟩
    · exact h.linked x (h1.symm.trans hx)
    · rw [hx] at h1
      cases h1
    · rw [hx] at h1
      cases h1
  · rw [hthread]
    exact (h.thread j).frame hframe (Option.some_ne_none j)
  · rw [hthread, hlock]
    exact h.lock j

theorem Inv.poll (h : Inv s L D) {p : Poller} {D' : Option (Fin 2) → List ℕ}
    (hD : ∀ e, D' (some e) = D (some e)) (hsub : D' none ⊆ D none)
    (hp : Taken s (D' none) p) : Inv (s.poll p) L D' := by
  have hmem : ∀ q, D' q ⊆ D q := fun q => by
    cases q with
    | none => exact hsub
    | some e => rw [hD e]; exact fun _ hx => hx
  refine h.of_poll rfl rfl rfl (fun x => .inl rfl) (fun x _ _ => ⟨rfl, rfl⟩)
    ⟨fun e => ?_, ?_, fun q n hn => h.queues.node q n (hmem q hn),
      fun q n hn => h.queues.lens q n (hmem q hn)⟩
  · rw [hD e]
    exact h.queues.list e
  · cases p with
    | drain n => exact hp
    | drained n => exact hp
    | _ => trivial

theorem update_none_some {D : Option (Fin 2) → List ℕ} {l : List ℕ} (e : Fin 2) :
    Function.update D none l (some e) = D (some e) :=
  Function.update_of_ne (Option.some_ne_none e) ..

theorem Inv.poll_on (h : Inv s L D) {p : Poller} (hp : Taken s (D none) p) :
    Inv (s.poll p) L D :=
  h.poll (fun _ => rfl) (fun _ hx => hx) hp

theorem Queues.uncons (h : Queues s D) {n : ℕ} (hp : s.poller = .drain n) (hn : n ≠ 0) :
    ∃ l, D none = n :: l ∧ n ∉ l ∧ Chain s.deferNext (s.deferNext n) l := by
  have ht := h.taken
  rw [hp] at ht
  obtain ⟨l, hl, hchain⟩ := Chain.uncons ht hn
  have hnd := Chain.nodup ht
  rw [hl] at hnd
  exact ⟨l, hl, (List.nodup_cons.mp hnd).1, hchain⟩

/-- `optics_epoch_inc` takes the list of the epoch before. -/
theorem Inv.take (h : Inv s L D) (e : Fin 2) :
    Inv ({ s with epochDefers := Function.update s.epochDefers e 0, owner := takeList s.owner e }.poll
      (.drain (s.epochDefers e))) L
      (Function.update (Function.update D (some e) []) none (D (some e))) := by
  have hother : ∀ x, s.owner x ≠ .queued (some e) → takeList s.owner e x = s.owner x := by
    intro x hx
    unfold takeList
    split
    · next e' he' =>
      rw [if_neg fun hc => hx (by rw [he', hc]), he']
    · rfl
  have htaken : ∀ x, s.owner x = .queued (some e) → takeList s.owner e x = .queued none := by
    intro x hx
    unfold takeList
    rw [hx]
    exact if_pos rfl
  have hD : ∀ e', Function.update (Function.update D (some e) []) none (D (some e)) (some e') =
      if e' = e then [] else D (some e') := by
    intro e'
    rw [update_none_some, Function.update_apply]
    simp only [Option.some.injEq]
  -- a node is on the list that is taken, or where it was
  have hmem : ∀ q n, n ∈ Function.update (Function.update D (some e) []) none (D (some e)) q →
      q = none ∧ n ∈ D (some e) ∨ q ≠ some e ∧ n ∈ D q := by
    intro q n hn
    cases q with
    | none =>
      rw [Function.update_self] at hn
      exact .inl ⟨rfl, hn⟩
    | some e' =>
      rw [hD] at hn
      by_cases he : e' = e
      · rw [if_pos he] at hn
        cases hn
      · rw [if_neg he] at hn
        exact .inr ⟨fun hc => he (Option.some.inj hc), hn⟩
  refine h.of_poll rfl rfl rfl (fun x => ?_) (fun x _ _ => ⟨rfl, rfl⟩)
    ⟨fun e' => ?_, ?_, fun q n hn => ?_, fun q n hn => ?_⟩
  · by_cases hx : s.owner x = .queued (some e)
    · exact .inr ⟨.inr ⟨_, hx⟩, .inr ⟨none, htaken x hx⟩⟩
    · exact .inl (hother x hx)
  · rw [hD]
    by_cases he : e' = e
    · rw [if_pos he, he]
      exact chain_nil.mpr (Function.update_self ..)
    · rw [if_neg he]
      show Chain _ (Function.update s.epochDefers e 0 e') _
      rw [Function.update_of_ne he]
      exact h.queues.list e'
  · rw [Function.update_self]
    exact h.queues.list e
  · rcases hmem q n hn with ⟨rfl, hn⟩ | ⟨hq, hn⟩
    · exact htaken n (h.queues.node _ n hn)
    · have h1 := h.queues.node q n hn
      exact (hother n fun hc => hq (Owner.queued.inj (h1.symm.trans hc))).trans h1
  · obtain ⟨q', hq'⟩ : ∃ q', n ∈ D q' :=
      (hmem q n hn).elim (fun h1 => ⟨_, h1.2⟩) fun h1 => ⟨_, h1.2⟩
    have h1 := h.queues.lens q' n hq'
    exact (hother _ fun hc => nomatch h1.symm.trans hc).trans h1

theorem Kept.others {x y len : ℕ} {node : ℕ → Node} {defer : ℕ → Defer}
    (hk : Kept (s.own x .unused) (s.withMem len node defer)) (hy : s.owner y ≠ .unused) (hyx : y ≠ x) :
    node y = s.node y ∧ defer y = s.defer y := by
  have hne : (s.own x .unused).owner y ≠ .unused := by
    rw [show (s.own x .unused).owner y = s.owner y from Function.update_of_ne hyx ..]
    exact hy
  exact ⟨hk.node y hne, hk.defer y hne⟩

theorem Inv.freeLens (h : Inv s L D) {n : ℕ} {node : ℕ → Node} {defer : ℕ → Defer}
    (hp : s.poller = .drain n) (hn : n ≠ 0)
    (hk : Kept (s.own (s.defer n).off .unused) (s.withMem s.len node defer)) :
    ∃ D', Inv (((s.withMem s.len node defer).own (s.defer n).off .unused).poll (.drained n)) L D' := by
  obtain ⟨l, hl, hnl, hchain⟩ := h.queues.uncons hp hn
  have hmem : n ∈ D none := by rw [hl]; exact List.mem_cons_self
  have hoff := h.queues.lens none n hmem
  set x := (s.defer n).off
  set s₁ := ((s.withMem s.len node defer).own x .unused).poll (.drained n) with hs₁
  have hox : s₁.owner x = .unused := Function.update_self ..
  have hoy : ∀ y, y ≠ x → s₁.owner y = s.owner y := fun y hy => Function.update_of_ne hy ..
  -- a node of a list is not the lens, and its lens is that of another node unless it is `n`
  have hqueued : ∀ q, ∀ m ∈ D q, m ≠ x ∧ s₁.owner m = .queued q ∧ s₁.defer m = s.defer m := by
    intro q m hm
    have h1 := h.queues.node q m hm
    have hmx : m ≠ x := ne_of_owner h1 hoff nofun
    exact ⟨hmx, (hoy m hmx).trans h1, (hk.others (by rw [h1]; exact nofun) hmx).2⟩
  have hnext : ∀ q, ∀ m ∈ D q, s₁.deferNext m = s.deferNext m := fun q m hm => by
    unfold State.deferNext
    rw [(hqueued q m hm).2.2]
  have hlens : ∀ q, ∀ m ∈ D q, m ≠ n → s₁.owner (s₁.defer m).off = .deferred m := by
    intro q m hm hmn
    have h1 := h.queues.lens q m hm
    rw [(hqueued q m hm).2.2]
    exact (hoy _ (ne_of_owner h1 hoff fun hc => hmn (Owner.deferred.inj hc))).trans h1
  have hne : ∀ e, ∀ m ∈ D (some e), m ≠ n := fun e m hm =>
    ne_of_owner (h.queues.node _ m hm) (h.queues.node none n hmem) nofun
  refine ⟨Function.update D none l, h.of_poll rfl rfl rfl (fun y => ?_) (fun y hy1 hy2 => ?_)
    ⟨fun e => ?_, ?_, fun q m hm => ?_, fun q m hm => ?_⟩⟩
  · by_cases hyx : y = x
    · rw [hyx]
      exact .inr ⟨.inl ⟨n, hoff⟩, .inl hox⟩
    · exact .inl (hoy y hyx)
  · exact hk.others hy1 fun hc => hy1 (by rw [← hy2, hc]; exact hox)
  · rw [update_none_some]
    exact (h.queues.list e).congr (hnext _)
  · show s₁.owner n = _ ∧ _ ∧ _
    rw [Function.update_self, hnext none n hmem]
    exact ⟨(hqueued none n hmem).2.1, hnl,
      hchain.congr fun m hm => hnext none m (by rw [hl]; exact List.mem_cons_of_mem _ hm)⟩
  · cases q with
    | none =>
      rw [Function.update_self] at hm
      exact (hqueued none m (by rw [hl]; exact List.mem_cons_of_mem _ hm)).2.1
    | some e =>
      rw [update_none_some] at hm
      exact (hqueued _ m hm).2.1
  · cases q with
    | none =>
      rw [Function.update_self] at hm
      exact hlens none m (by rw [hl]; exact List.mem_cons_of_mem _ hm) fun hc => hnl (hc ▸ hm)
    | some e =>
      rw [update_none_some] at hm
      exact hlens _ m hm (hne e m hm)

theorem Inv.freeNode (h : Inv s L D) {n : ℕ} {node : ℕ → Node} {defer : ℕ → Defer}
    (hp : s.poller = .drained n) (hk : Kept (s.own n .unused) (s.withMem s.len node defer)) :
    Inv (((s.withMem s.len node defer).own n .unused).poll (.drain (s.deferNext n))) L D := by
  have ht := h.queues.taken
  rw [hp] at ht
  obtain ⟨hon, hnl, hchain⟩ := ht
  set s₁ := ((s.withMem s.len node defer).own n .unused).poll (.drain (s.deferNext n)) with hs₁
  have hoy : ∀ y, y ≠ n → s₁.owner y = s.owner y := fun y hy => Function.update_of_ne hy ..
  have hself : s₁.owner n = .unused := Function.update_self ..
  have hmn : ∀ q, ∀ m ∈ D q, m ≠ n := by
    rintro q m hm rfl
    have h1 := h.queues.node q m hm
    rw [hon] at h1
    cases h1
    exact hnl hm
  have hqueued : ∀ q, ∀ m ∈ D q, s₁.owner m = .queued q ∧ s₁.defer m = s.defer m := by
    intro q m hm
    have h1 := h.queues.node q m hm
    exact ⟨(hoy m (hmn q m hm)).trans h1, (hk.others (by rw [h1]; exact nofun) (hmn q m hm)).2⟩
  have hnext : ∀ q, ∀ m ∈ D q, s₁.deferNext m = s.deferNext m := fun q m hm => by
    unfold State.deferNext
    rw [(hqueued q m hm).2]
  refine h.of_poll rfl rfl rfl (fun y => ?_) (fun y hy1 hy2 => ?_)
    ⟨fun e => (h.queues.list e).congr (hnext _), hchain.congr (hnext _),
      fun q m hm => (hqueued q m hm).1, fun q m hm => ?_⟩
  · by_cases hyn : y = n
    · rw [hyn]
      exact .inr ⟨.inr ⟨none, hon⟩, .inl hself⟩
    · exact .inl (hoy y hyn)
  · exact hk.others hy1 fun hc => hy1 (by rw [← hy2, hc]; exact hself)
  · have h1 := h.queues.lens q m hm
    rw [(hqueued q m hm).2]
    exact (hoy _ (ne_of_owner h1 hon nofun)).trans h1

/-- **Every step of the poller keeps the invariant**, and the list. -/
theorem Inv.pollerStep (h : Inv s L D) (hs : PollerStep s s') : ∃ D', Inv s' L D' := by
  cases hs with
  | opened hp =>
    refine ⟨D, h.of_poll rfl rfl rfl (fun x => .inl rfl) (fun x _ _ => ⟨rfl, rfl⟩)
      (h.queues.frame (fun n q hn => ⟨hn, rfl⟩) (fun x n hx => hx) rfl rfl)⟩
  | take hp => exact ⟨_, h.take _⟩
  | leak hp hn hv =>
    refine ⟨Function.update D none [], h.poll (fun e => update_none_some e) ?_ ?_⟩
    · rw [Function.update_self]
      exact List.nil_subset _
    · rw [Function.update_self]
      exact chain_nil.mpr rfl
  | freeLens hp hn hv hf hk => exact h.freeLens hp hn hk
  | @leakLens n hp hn hv hf =>
    obtain ⟨l, hl, hnl, hchain⟩ := h.queues.uncons hp hn
    refine ⟨Function.update D none l, h.poll (fun e => update_none_some e) ?_ ?_⟩
    · rw [Function.update_self, hl]
      exact List.subset_cons_self _ _
    · rw [Function.update_self]
      exact ⟨h.queues.node none n (by rw [hl]; exact List.mem_cons_self), hnl, hchain⟩
  | freeNode hp hf hk => exact ⟨D, h.freeNode hp hk⟩
  | leakNode hp hf =>
    have ht := h.queues.taken
    rw [hp] at ht
    exact ⟨D, h.poll_on ht.2.2⟩
  | inc hp =>
    refine ⟨D, h.of_poll rfl rfl rfl (fun x => .inl rfl) (fun x _ _ => ⟨rfl, rfl⟩)
      ⟨h.queues.list, trivial, h.queues.node, h.queues.lens⟩⟩
  | head hp => exact ⟨D, h.poll_on trivial⟩
  | visit hp h0 hv => exact ⟨D, h.poll_on trivial⟩
  | next hp => exact ⟨D, h.poll_on trivial⟩
  | done hp => exact ⟨D, h.poll_on trivial⟩
  | fail hp h0 hv => exact ⟨D, h.poll_on trivial⟩

theorem Inv.start (h : Start s) : Inv s [] fun _ => [] where
  null := h.owner 0
  list := by
    have he : s.edit = .none := by
      unfold State.edit
      rw [h.lock]
    rw [he]
    exact h.lensHead
  listed x hx := absurd hx List.not_mem_nil
  linked x hx := by
    rw [h.owner x] at hx
    cases hx
  thread i := by
    rw [h.thread i]
    trivial
  lock i := by
    rw [h.thread i, h.lock]
    simp [Thread.holds]
  queues := by
    refine ⟨fun e => chain_nil.mpr (h.epochDefers e), ?_, fun q n hn => absurd hn List.not_mem_nil,
      fun q n hn => absurd hn List.not_mem_nil⟩
    rw [h.poller]
    trivial

/-- **Every reachable state has the invariant.** -/
theorem Reachable.inv [DecidableEq ι] (h : Reachable s) : ∃ L D, Inv s L D := by
  refine Lib.Runs.Reachable.invariant (I := fun s => ∃ L D, Inv s L D)
    (fun s h0 => ⟨_, _, .start h0⟩) (fun s s' hI hs => ?_) h
  obtain ⟨L, D, hI⟩ := hI
  cases hs with
  | thread i hs =>
    obtain ⟨L', D', h', -⟩ := hI.threadStep hs
    exact ⟨L', D', h'⟩
  | poller hs =>
    obtain ⟨D', h'⟩ := hI.pollerStep hs
    exact ⟨L, D', h'⟩

end Optics.Traversal
