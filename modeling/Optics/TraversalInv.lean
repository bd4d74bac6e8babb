import Optics.Traversal
import Optics.Lib.LinkedList

/-! # The list between the steps

What holds between any two steps of registering and freeing threads and the poller (`Inv`): the list
is a chain, of which the holder of the lock may have edited a part (`ListOf`), every block is in use
for one thing, and the lists of `epoch_defers` hold lenses that are off the list. -/

namespace Optics.Traversal

open Optics.Base Optics.Lib.LinkedList

/-! ### Edits of the list -/

/-- How far the holder of the lock is with its edit of the list. -/
inductive Edit where
  | none
  /-- `lens->next` is stored -/
  | linking (lens : ℕ)
  /-- the old head knows the lens -/
  | linked (lens : ℕ)
  /-- the successor of the lens knows its predecessor -/
  | parting (lens : ℕ)
  /-- the predecessor links to the successor -/
  | parted (lens : ℕ)

/-- The list `L`, at each stage of an edit. -/
def ListOf (next prev : ℕ → ℕ) (head : ℕ) (L : List ℕ) : Edit → Prop
  | .none => DChain next prev head L
  | .linking x => DChain next prev head L ∧ next x = head ∧ prev x = 0
  | .linked x => DSeg next prev x head L ∧ next x = head ∧ prev x = 0
  | .parting x => x ∈ L ∧ ∃ g, DChain next g head L ∧
      ∀ y ∈ L, prev y = if y = next x then g x else g y
  | .parted x => (head = x ∧ x ≠ 0 ∧ ∃ l, L = x :: l ∧ DChain next prev (next x) l) ∨
      (head ≠ x ∧ x ∉ L ∧ DChain next prev head L)

section Edits
variable {f g f' g' : ℕ → ℕ} {a x : ℕ} {L : List ℕ}

/-- At every stage the list is a chain. -/
theorem ListOf.chain {e : Edit} (h : ListOf f g a L e) : Chain f a L := by
  cases e with
  | none => exact DChain.chain h
  | linking x => exact h.1.chain
  | linked x => exact h.1.chain
  | parting x =>
    obtain ⟨-, g', h, -⟩ := h
    exact h.chain
  | parted x =>
    rcases h with ⟨rfl, hx, l, rfl, h⟩ | ⟨-, -, h⟩
    · exact chain_cons.mpr ⟨rfl, hx, h.chain⟩
    · exact h.chain

/-- The lens an edit is about. -/
def Edit.IsOf (x : ℕ) : Edit → Prop
  | .none => False
  | .linking y | .linked y | .parting y | .parted y => x = y

theorem ListOf.congr {e : Edit} (h : ListOf f g a L e)
    (hf : ∀ y, y ∈ L ∨ e.IsOf y → f' y = f y) (hg : ∀ y, y ∈ L ∨ e.IsOf y → g' y = g y) :
    ListOf f' g' a L e := by
  have hfL : ∀ y ∈ L, f' y = f y := fun y hy => hf y (.inl hy)
  have hgL : ∀ y ∈ L, g' y = g y := fun y hy => hg y (.inl hy)
  cases e with
  | none => exact DChain.congr h hfL hgL
  | linking x =>
    obtain ⟨h1, h2, h3⟩ := h
    exact ⟨h1.congr hfL hgL, (hf x (.inr rfl)).trans h2, (hg x (.inr rfl)).trans h3⟩
  | linked x =>
    obtain ⟨h1, h2, h3⟩ := h
    exact ⟨h1.congr hfL hgL, (hf x (.inr rfl)).trans h2, (hg x (.inr rfl)).trans h3⟩
  | parting x =>
    obtain ⟨hx, g0, h1, h2⟩ := h
    refine ⟨hx, g0, h1.congr hfL fun _ _ => rfl, fun y hy => ?_⟩
    rw [hgL y hy, h2 y hy, hf x (.inr rfl)]
  | parted x =>
    rcases h with ⟨h1, hx, l, rfl, h2⟩ | ⟨h1, h2, h3⟩
    · refine .inl ⟨h1, hx, l, rfl, ?_⟩
      rw [hf x (.inr rfl)]
      exact h2.congr (fun y hy => hfL y (List.mem_cons_of_mem _ hy))
        fun y hy => hgL y (List.mem_cons_of_mem _ hy)
    · exact .inr ⟨h1, h2, h3.congr hfL hgL⟩

/-- `lens_set_next`, first store. -/
theorem ListOf.setNext (h : ListOf f g a L .none) (hx : x ∉ L) (hg : g x = 0) :
    ListOf (Function.update f x a) g a L (.linking x) := by
  refine ⟨DChain.congr h (fun y hy => Function.update_of_ne (fun (hc : y = x) => hx (hc ▸ hy)) ..)
    fun _ _ => rfl, Function.update_self .., hg⟩

/-- `lens_set_next`, second store. -/
theorem ListOf.setPrev (h : ListOf f g a L (.linking x)) (hx : x ∉ L) :
    ListOf f (if f x = 0 then g else Function.update g (f x) x) a L (.linked x) := by
  obtain ⟨hd, hfx, hgx⟩ := h
  rw [hfx]
  by_cases ha : a = 0
  · have hL : L = [] := hd.chain.eq_nil_iff.mpr ha
    rw [if_pos ha, hL]
    exact ⟨ha, hfx, hgx⟩
  · rw [if_neg ha]
    obtain ⟨l, rfl, -⟩ := hd.chain.uncons ha
    refine ⟨DSeg.reparent hd (fun _ _ => rfl) (fun y _ hya => Function.update_of_ne hya ..)
      fun _ => Function.update_self .., hfx, ?_⟩
    rw [Function.update_of_ne fun (hc : x = a) => hx (hc ▸ List.mem_cons_self)]
    exact hgx

/-- `optics_push_lens` stores the head. -/
theorem ListOf.setHead (h : ListOf f g a L (.linked x)) (hx0 : x ≠ 0) :
    ListOf f g x (x :: L) .none := by
  obtain ⟨h1, h2, h3⟩ := h
  refine ⟨rfl, hx0, h3, ?_⟩
  rw [h2]
  exact h1

/-- `lens_kill`, first store. -/
theorem ListOf.killNext (h : ListOf f g a L .none) (hx : x ∈ L) :
    ListOf f (if f x = 0 then g else Function.update g (f x) (g x)) a L (.parting x) := by
  refine ⟨hx, g, h, fun y hy => ?_⟩
  have hy0 : y ≠ 0 := fun hc => (DChain.chain h).2 (hc ▸ hy)
  by_cases hfx : f x = 0
  · rw [if_pos hfx, if_neg fun hc => hy0 (hc.trans hfx)]
  · rw [if_neg hfx]
    by_cases hyx : y = f x
    · rw [if_pos hyx, hyx, Function.update_self]
    · rw [if_neg hyx, Function.update_of_ne hyx]

section Parting
variable {g₀ : ℕ → ℕ} {l₁ l₂ : List ℕ}

/-- While a lens is parting, whoever has it for a predecessor has been told its predecessor. -/
theorem DChain.parting (hd : DChain f g₀ a (l₁ ++ x :: l₂))
    (hg : ∀ y ∈ l₁ ++ x :: l₂, g y = if y = f x then g₀ x else g₀ y) :
    g x = g₀ x ∧ ∀ y ∈ l₁ ++ l₂, (g₀ y = x → g y = g₀ x) ∧ (g₀ y ≠ x → g y = g₀ y) := by
  have hx : x ∈ l₁ ++ x :: l₂ := List.mem_append_right _ List.mem_cons_self
  refine ⟨by rw [hg x hx, if_neg (hd.chain.next_ne hx).symm], fun y hy => ?_⟩
  have hyL := ((List.sublist_cons_self x l₂).append_left l₁).subset hy
  rw [hg y hyL]
  constructor
  · intro hyx
    rcases DSeg.prev_mem hd hyL with ⟨-, h0⟩ | ⟨-, h1⟩
    · exact absurd (hyx.symm.trans h0 ▸ hx) hd.chain.2
    · rw [if_pos (hyx ▸ h1).symm]
  · intro hyx
    refine if_neg fun hc => hyx ?_
    rw [hc]
    exact DSeg.prev_next hd hx fun hc' => hd.chain.2 (hc.trans hc' ▸ hyL)

/-- The first lens stays in the list until the head is stored. -/
theorem ListOf.partFirst (hd : DChain f g₀ a (l₁ ++ x :: l₂))
    (hg : ∀ y ∈ l₁ ++ x :: l₂, g y = if y = f x then g₀ x else g₀ y) (h0 : g₀ x = 0) :
    ListOf f g a (l₁ ++ x :: l₂) (.parted x) := by
  have hx : x ∈ l₁ ++ x :: l₂ := List.mem_append_right _ List.mem_cons_self
  have hax : a = x := (hd.prev_eq_zero hx).mp h0
  -- the first lens of the list has nothing in front of it
  have hl₁ : l₁ = [] := by
    cases l₁ with
    | nil => rfl
    | cons b l₁ =>
      have hb : a = b := hd.1
      have hxl := (List.nodup_cons.mp (List.nodup_middle.mp hd.chain.nodup)).1
      rw [← hb, hax] at hxl
      exact absurd List.mem_cons_self hxl
  subst hl₁
  refine .inl ⟨hax, hd.2.1, l₂, rfl, ?_⟩
  have hrest : DSeg f g₀ x (f x) l₂ := hd.2.2.2
  refine DSeg.reparent hrest (fun _ _ => rfl) (fun y hy hya => ?_) fun hmem => ?_
  · rw [hg y (List.mem_cons_of_mem _ hy), if_neg hya]
  · rw [hg _ (List.mem_cons_of_mem _ hmem), if_pos rfl, h0]

/-- Any other lens is off the list once its predecessor links to its successor. -/
theorem ListOf.partRest (hd : DChain f g₀ a (l₁ ++ x :: l₂))
    (hg : ∀ y ∈ l₁ ++ x :: l₂, g y = if y = f x then g₀ x else g₀ y) (h0 : g₀ x ≠ 0) :
    g₀ x ∈ l₁ ++ l₂ ∧ f (g₀ x) = x ∧
      ListOf (Function.update f (g₀ x) (f x)) g a (l₁ ++ l₂) (.parted x) := by
  have hx : x ∈ l₁ ++ x :: l₂ := List.mem_append_right _ List.mem_cons_self
  have hx0 : x ≠ 0 := fun hc => hd.chain.2 (hc ▸ hx)
  have hxl : x ∉ l₁ ++ l₂ := (List.nodup_cons.mp (List.nodup_middle.mp hd.chain.nodup)).1
  have hax : a ≠ x := fun hc => h0 ((hd.prev_eq_zero hx).mpr hc)
  obtain ⟨hp, hfp⟩ : g₀ x ∈ l₁ ++ x :: l₂ ∧ f (g₀ x) = x :=
    (DSeg.prev_mem hd hx).resolve_left fun hc => h0 hc.2
  have hpx : g₀ x ≠ x := fun hc => hd.chain.next_ne hx ((congrArg f hc).symm.trans hfp)
  have hp' : g₀ x ∈ l₁ ++ l₂ := by
    rcases List.mem_append.mp hp with hp | hp
    · exact List.mem_append_left _ hp
    · exact List.mem_append_right _ ((List.mem_cons.mp hp).resolve_left hpx)
  refine ⟨hp', hfp, .inr ⟨hax, hxl, ?_⟩⟩
  refine DSeg.remove hd hx0.symm (fun y hy => ⟨fun hyx => ?_, fun hyx => ?_⟩)
    (DChain.parting hd hg).2 (fun hc => absurd hc hax) fun _ => rfl
  · have hyL := ((List.sublist_cons_self x l₂).append_left l₁).subset hy
    have hy : y = g₀ x := (DSeg.prev_next hd hyL (hyx ▸ hx0)).symm.trans (hyx ▸ rfl)
    rw [hy, Function.update_self]
  · exact Function.update_of_ne (fun (hc : y = g₀ x) => hyx (hc ▸ hfp)) ..

end Parting

/-- `lens_kill`, second store: unless the lens is the first, it is off the list now. -/
theorem ListOf.killPrev (h : ListOf f g a L (.parting x)) :
    (g x = 0 → ListOf f g a L (.parted x)) ∧
    (g x ≠ 0 → ∃ l₁ l₂, L = l₁ ++ x :: l₂ ∧ g x ∈ l₁ ++ l₂ ∧ f (g x) = x ∧
      ListOf (Function.update f (g x) (f x)) g a (l₁ ++ l₂) (.parted x)) := by
  obtain ⟨hx, g₀, hd, hg⟩ := h
  obtain ⟨l₁, l₂, rfl⟩ := List.append_of_mem hx
  rw [(DChain.parting hd hg).1]
  exact ⟨ListOf.partFirst hd hg, fun h0 => ⟨l₁, l₂, rfl, ListOf.partRest hd hg h0⟩⟩

/-- `optics_remove_lens` stores the head. -/
theorem ListOf.removeHead (h : ListOf f g a L (.parted x)) :
    ∃ L', (∀ y, y ∈ L' ↔ y ∈ L ∧ y ≠ x) ∧ ListOf f g (if a = x then f x else a) L' .none := by
  have hnd := ListOf.chain h |>.nodup
  rcases h with ⟨rfl, hx, l, rfl, h2⟩ | ⟨h1, h2, h3⟩
  · refine ⟨l, fun y => ?_, by rw [if_pos rfl]; exact h2⟩
    have hal : a ∉ l := (List.nodup_cons.mp hnd).1
    constructor
    · exact fun hy => ⟨List.mem_cons_of_mem _ hy, fun hc => hal (hc ▸ hy)⟩
    · exact fun hy => (List.mem_cons.mp hy.1).resolve_left hy.2
  · exact ⟨L, fun y => ⟨fun hy => ⟨hy, fun hc => h2 (hc ▸ hy)⟩, fun hy => hy.1⟩,
      by rw [if_neg h1]; exact h3⟩

end Edits

/-! ### The invariant -/

section Invariant
variable {ι : Type}

/-- The edit a thread with the lock is at. -/
def Thread.edit : Thread → Edit
  | .setPrev x => .linking x
  | .setHead x => .linked x
  | .killPrev x => .parting x
  | .removeHead x => .parted x
  | _ => .none

/-- The edit of the holder of the lock. -/
def State.edit (s : State ι) : Edit :=
  match s.lock with
  | none => .none
  | some i => (s.thread i).edit

/-- The thread a block belongs to. -/
def Owner.thread : Owner ι → Option ι
  | .registering i | .freeing i | .unlinked i | .held i => some i
  | _ => none

/-- The lens is in the list, as far as its owner is concerned. -/
def Owner.Listed (o : Owner ι) : Prop := o = .linked ∨ ∃ i, o = .freeing i

/-- What a thread relies on. -/
def ThreadOk (s : State ι) (L : List ℕ) (i : ι) : Thread → Prop
  | .idle | .release => True
  | .made x | .put x | .setNext x | .taken x | .drop x => s.owner x = .registering i ∧ s.prev x = 0
  | .setPrev x | .setHead x => s.owner x = .registering i
  | .free x | .del x | .killNext x | .killPrev x => s.owner x = .freeing i ∧ x ∈ L
  | .removeHead x => s.owner x = .freeing i
  | .removed x | .deferFree x => s.owner x = .unlinked i
  | .deferEpoch x n | .deferLoad x n _ =>
    s.owner x = .unlinked i ∧ s.owner n = .held i ∧ (s.defer n).off = x
  | .deferPush x n _ old =>
    s.owner x = .unlinked i ∧ s.owner n = .held i ∧ (s.defer n).off = x ∧ s.deferNext n = old

/-- The list the poller has taken, from where it is. -/
def Taken (s : State ι) (l : List ℕ) : Poller → Prop
  | .drain n => Chain s.deferNext n l
  | .drained n => s.owner n = .queued none ∧ n ∉ l ∧ Chain s.deferNext (s.deferNext n) l
  | _ => True

/-- The lists of `epoch_defers` and the list the poller has taken: their nodes, and the lenses these
are about. -/
structure Queues (s : State ι) (D : Option (Fin 2) → List ℕ) : Prop where
  list : ∀ e, Chain s.deferNext (s.epochDefers e) (D (some e))
  taken : Taken s (D none) s.poller
  node : ∀ q, ∀ n ∈ D q, s.owner n = .queued q
  lens : ∀ q, ∀ n ∈ D q, s.owner (s.defer n).off = .deferred n

/-- **The invariant**, with the list and the lists of the epochs. -/
structure Inv (s : State ι) (L : List ℕ) (D : Option (Fin 2) → List ℕ) : Prop where
  null : s.owner 0 = .unused
  list : ListOf s.next s.prev s.lensHead L s.edit
  listed : ∀ x ∈ L, (s.owner x).Listed
  linked : ∀ x, s.owner x = .linked → x ∈ L
  thread : ∀ i, ThreadOk s L i (s.thread i)
  lock : ∀ i, (s.thread i).holds = true ↔ s.lock = some i
  queues : Queues s D

variable {s s' : State ι} {L L' : List ℕ} {D D' : Option (Fin 2) → List ℕ} {i j : ι} {t t' : Thread}

theorem ne_of_owner {x y : ℕ} {o o' : Owner ι} (hx : s.owner x = o) (hy : s.owner y = o')
    (ho : o ≠ o') : x ≠ y :=
  fun hc => ho (hx.symm.trans ((congrArg s.owner hc).trans hy))

theorem Owner.of_thread {o : Owner ι} (h : o.thread = some j) :
    o ≠ .unused ∧ (∀ n, o ≠ .deferred n) ∧ ∀ q, o ≠ .queued q := by
  refine ⟨?_, fun n => ?_, fun q => ?_⟩
  · rintro rfl
    cases h
  · rintro rfl
    cases h
  · rintro rfl
    cases h

theorem Owner.Listed.uses {o : Owner ι} (h : o.Listed) :
    o ≠ .unused ∧ (∀ n, o ≠ .deferred n) ∧ ∀ q, o ≠ .queued q := by
  rcases h with rfl | ⟨j, rfl⟩
  · exact ⟨nofun, nofun, nofun⟩
  · exact Owner.of_thread rfl

theorem Inv.ne_zero (h : Inv s L D) {x : ℕ} {o : Owner ι} (hx : s.owner x = o) (ho : o ≠ .unused) :
    x ≠ 0 :=
  ne_of_owner hx h.null ho

theorem Inv.notMem (h : Inv s L D) {x : ℕ} {o : Owner ι} (hx : s.owner x = o) (h1 : o ≠ .linked)
    (h2 : ∀ j, o ≠ .freeing j) : x ∉ L := by
  intro hmem
  rcases h.listed x hmem with hc | ⟨j, hc⟩
  · exact h1 (hx.symm.trans hc)
  · exact h2 j (hx.symm.trans hc)

theorem ThreadOk.edit_owner (h : ThreadOk s L j t) {x : ℕ} (hx : t.edit.IsOf x) :
    (s.owner x).thread = some j := by
  cases t with
  | setPrev y | setHead y | removeHead y =>
    obtain rfl : x = y := hx
    rw [show s.owner x = _ from h]
    rfl
  | killPrev y =>
    obtain rfl : x = y := hx
    rw [show s.owner x = _ from h.1]
    rfl
  | _ => exact hx.elim

/-- What belongs to the threads other than `o` is as it was. -/
structure Frame (s s' : State ι) (L L' : List ℕ) (o : Option ι) : Prop where
  owner : ∀ x j, some j ≠ o → (s.owner x).thread = some j → s'.owner x = s.owner x
  prev : ∀ x j, some j ≠ o → s.owner x = .registering j → s'.prev x = s.prev x
  defer : ∀ x j, some j ≠ o → s.owner x = .held j → s'.defer x = s.defer x
  list : ∀ x j, some j ≠ o → s.owner x = .freeing j → x ∈ L → x ∈ L'

theorem ThreadOk.frame {o : Option ι} (h : ThreadOk s L j t) (hf : Frame s s' L L' o)
    (hj : some j ≠ o) : ThreadOk s' L' j t := by
  have ho : ∀ {x : ℕ} {w : Owner ι}, w.thread = some j → s.owner x = w → s'.owner x = w :=
    fun hw hx => (hf.owner _ j hj (hx ▸ hw)).trans hx
  have hheld : ∀ {x n : ℕ}, s.owner x = .unlinked j ∧ s.owner n = .held j ∧ (s.defer n).off = x →
      s'.owner x = .unlinked j ∧ s'.owner n = .held j ∧ (s'.defer n).off = x := by
    rintro x n ⟨h1, h2, h3⟩
    exact ⟨ho rfl h1, ho rfl h2, by rw [hf.defer n j hj h2, h3]⟩
  cases t with
  | idle | release => trivial
  | made x | put x | setNext x | taken x | drop x =>
    exact ⟨ho rfl h.1, (hf.prev x j hj h.1).trans h.2⟩
  | setPrev x | setHead x => exact ho rfl h
  | free x | del x | killNext x | killPrev x => exact ⟨ho rfl h.1, hf.list x j hj h.1 h.2⟩
  | removeHead x => exact ho rfl h
  | removed x | deferFree x => exact ho rfl h
  | deferEpoch x n | deferLoad x n e => exact hheld h
  | deferPush x n e old =>
    obtain ⟨h1, h2, h3, h4⟩ := h
    obtain ⟨h5, h6, h7⟩ := hheld ⟨h1, h2, h3⟩
    refine ⟨h5, h6, h7, ?_⟩
    unfold State.deferNext
    rw [hf.defer n j hj h2]
    exact h4

theorem Queues.frame (h : Queues s D)
    (hn : ∀ n q, s.owner n = .queued q → s'.owner n = .queued q ∧ s'.defer n = s.defer n)
    (hl : ∀ x n, s.owner x = .deferred n → s'.owner x = .deferred n)
    (he : s'.epochDefers = s.epochDefers) (hp : s'.poller = s.poller) : Queues s' D := by
  have hnext : ∀ q, ∀ n ∈ D q, s'.deferNext n = s.deferNext n := fun q n hmem => by
    unfold State.deferNext
    rw [(hn n q (h.node q n hmem)).2]
  refine ⟨fun e => ?_, ?_, fun q n hmem => (hn n q (h.node q n hmem)).1, fun q n hmem => ?_⟩
  · rw [he]
    exact (h.list e).congr (hnext _)
  · rw [hp]
    have ht := h.taken
    cases hpoll : s.poller with
    | drain n =>
      rw [hpoll] at ht
      exact Chain.congr ht (hnext _)
    | drained n =>
      rw [hpoll] at ht
      obtain ⟨h1, h2, h3⟩ := ht
      obtain ⟨h4, h5⟩ := hn n none h1
      have hnn : s'.deferNext n = s.deferNext n := by
        unfold State.deferNext
        rw [h5]
      refine ⟨h4, h2, ?_⟩
      rw [hnn]
      exact h3.congr (hnext _)
    | idle => trivial
    | visit _ _ => trivial
    | visited _ _ => trivial
  · rw [(hn n q (h.node q n hmem)).2]
    exact hl _ _ (h.lens q n hmem)

/-- The lock, as a step of thread `i` leaves it. -/
inductive LockStep (s s' : State ι) (i : ι) (t' : Thread) : Prop
  | keep (hl : s'.lock = s.lock) (hh : t'.holds = (s.thread i).holds)
  | acquire (h0 : s.lock = none) (hl : s'.lock = some i) (hh : t'.holds = true)
  | release (h0 : (s.thread i).holds = true) (hl : s'.lock = none) (hh : t'.holds = false)

/-- What a step of a thread may do to the use of a block. -/
inductive OwnerStep (i : ι) : Owner ι → Owner ι → Prop
  | keep (o : Owner ι) : OwnerStep i o o
  | alloc : OwnerStep i .unused (.registering i)
  | drop : OwnerStep i (.registering i) .unused
  | link : OwnerStep i (.registering i) .linked
  | free : OwnerStep i .linked (.freeing i)
  | back : OwnerStep i (.freeing i) .linked
  | unlink : OwnerStep i (.freeing i) (.unlinked i)
  | leak : OwnerStep i (.unlinked i) .leaked
  | hold : OwnerStep i .unused (.held i)
  | queue (e : Fin 2) : OwnerStep i (.held i) (.queued (some e))
  | defer (n : ℕ) : OwnerStep i (.unlinked i) (.deferred n)

theorem OwnerStep.own {x : ℕ} {o : Owner ι} (h : OwnerStep i (s.owner x) o) (y : ℕ) :
    OwnerStep i (s.owner y) ((s.own x o).owner y) := by
  by_cases hy : y = x
  · subst hy
    simpa [State.own] using h
  · simpa [State.own, hy] using OwnerStep.keep (s.owner y)

theorem OwnerStep.other {o o' : Owner ι} (h : OwnerStep i o o') (hj : o.thread = some j)
    (hji : j ≠ i) : o' = o := by
  cases h with
  | keep => rfl
  | _ => first | exact absurd (Option.some.inj hj).symm hji | cases hj

/-- A lens that has been in the list and is not released. -/
def Owner.Published : Owner ι → Prop
  | .linked | .freeing _ | .unlinked _ | .leaked | .deferred _ => True
  | _ => False

theorem OwnerStep.published {o o' : Owner ι} (h : OwnerStep i o o') (hp : o.Published) :
    o'.Published := by
  cases h with
  | keep => exact hp
  | _ => trivial

/-- What a step does to the list, for someone who goes through it: a lens that comes in is a new
one, and of the links of lenses that have been in the list only that in front of the lens that goes
out changes. -/
structure Effect (s s' : State ι) (L L' : List ℕ) : Prop where
  owner : ∃ i, ∀ x, OwnerStep i (s.owner x) (s'.owner x)
  new : ∀ x ∈ L', x ∈ L ∨ ∃ i, s.owner x = .registering i
  next : (∀ x, (s.owner x).Published → s'.next x = s.next x) ∨
    ∃ p ∈ L, s.next p ∈ L ∧ s.next p ∉ L' ∧ ∀ x, (s.owner x).Published →
      s'.next x = if x = p then s.next (s.next p) else s.next x

theorem Effect.published (h : Effect s s' L L') {x : ℕ} (hx : (s.owner x).Published) :
    (s'.owner x).Published := by
  obtain ⟨i, hown⟩ := h.owner
  exact (hown x).published hx

theorem Frame.of_owner (hown : ∀ x, OwnerStep i (s.owner x) (s'.owner x))
    (hprev : ∀ x j, j ≠ i → s.owner x = .registering j → s'.prev x = s.prev x)
    (hdefer : ∀ x j, j ≠ i → s.owner x = .held j → s'.defer x = s.defer x)
    (hL : ∀ x j, j ≠ i → s.owner x = .freeing j → x ∈ L → x ∈ L') :
    Frame s s' L L' (some i) where
  owner x _ hj hx := (hown x).other hx fun hc => hj (hc ▸ rfl)
  prev x j hj hx := hprev x j (fun hc => hj (hc ▸ rfl)) hx
  defer x j hj hx := hdefer x j (fun hc => hj (hc ▸ rfl)) hx
  list x j hj := hL x j fun hc => hj (hc ▸ rfl)

theorem Queues.of_owner (h : Queues s D) (hown : ∀ x, OwnerStep i (s.owner x) (s'.owner x))
    (hdefer : ∀ n q, s.owner n = .queued q → s'.defer n = s.defer n)
    (he : s'.epochDefers = s.epochDefers) (hp : s'.poller = s.poller) : Queues s' D := by
  refine h.frame (fun n q hn => ⟨?_, hdefer n q hn⟩) (fun x n hx => ?_) he hp
  · have hs := hown n
    rw [hn] at hs
    generalize s'.owner n = o at hs ⊢
    cases hs
    rfl
  · have hs := hown x
    rw [hx] at hs
    generalize s'.owner x = o at hs ⊢
    cases hs
    rfl

/-- Blocks in use before and after have kept their content. -/
structure Still (s s' : State ι) (i : ι) : Prop where
  node : ∀ x, s.owner x ≠ .unused → s'.owner x ≠ .unused → s'.node x = s.node x
  defer : ∀ x, s.owner x ≠ .unused → s'.owner x ≠ .unused → s.owner x ≠ .held i →
    s'.defer x = s.defer x

section Threads
variable [DecidableEq ι]

theorem LockStep.lock (h : LockStep s s' i t')
    (hlock : ∀ j, (s.thread j).holds = true ↔ s.lock = some j)
    (ht : s'.thread = Function.update s.thread i t') (j : ι) :
    (s'.thread j).holds = true ↔ s'.lock = some j := by
  rw [ht]
  by_cases hj : j = i
  · subst hj
    rw [Function.update_self]
    cases h with
    | keep hl hh => rw [hl, hh, hlock j]
    | acquire _ hl hh => simp [hl, hh]
    | release _ hl hh => simp [hl, hh]
  · rw [Function.update_of_ne hj]
    cases h with
    | keep hl _ => rw [hl, hlock j]
    | acquire h0 hl _ =>
      rw [hl, hlock j, h0]
      simp [Ne.symm hj]
    | release h0 hl _ =>
      rw [hl, hlock j, (hlock i).mp h0]
      simp [Ne.symm hj]

theorem LockStep.edit (h : LockStep s s' i t')
    (hlock : ∀ j, (s.thread j).holds = true ↔ s.lock = some j)
    (ht : s'.thread = Function.update s.thread i t') :
    s'.edit = if t'.holds then t'.edit else
      if (s.thread i).holds then .none else s.edit := by
  have hnot : (s.thread i).holds = false → ∀ j, s.lock = some j → j ≠ i := fun hf j hj hc => by
    rw [← hlock, hc, hf] at hj
    cases hj
  unfold State.edit
  cases h with
  | keep hl hh =>
    rw [hl, ht, hh]
    by_cases hi : (s.thread i).holds = true
    · simp [(hlock i).mp hi, hi]
    · rw [Bool.not_eq_true] at hi
      cases hs : s.lock with
      | none => simp [hi]
      | some j => simp [hi, Function.update_of_ne (hnot hi j hs)]
  | acquire h0 hl hh => simp [hl, hh, ht]
  | release h0 hl hh => simp [hl, hh, h0]

/-- **A step of a thread keeps the invariant** if it leaves a list, its own claims hold, and what
belongs to others is as it was. -/
theorem Inv.of_step (h : Inv s L D) (ht : s'.thread = Function.update s.thread i t')
    (hl : LockStep s s' i t') (h0 : s'.owner 0 = .unused)
    (hlist : ListOf s'.next s'.prev s'.lensHead L' s'.edit)
    (hlisted : ∀ x ∈ L', (s'.owner x).Listed) (hlinked : ∀ x, s'.owner x = .linked → x ∈ L')
    (hi : ThreadOk s' L' i t') (hf : Frame s s' L L' (some i)) (hq : Queues s' D') :
    Inv s' L' D' where
  null := h0
  list := hlist
  listed := hlisted
  linked := hlinked
  thread j := by
    rw [ht]
    by_cases hj : j = i
    · subst hj
      rw [Function.update_self]
      exact hi
    · rw [Function.update_of_ne hj]
      exact (h.thread j).frame hf fun hc => hj (Option.some.inj hc)
  lock j := hl.lock h.lock ht j
  queues := hq

theorem LockStep.edit_eq (h : LockStep s s' i t')
    (hlock : ∀ j, (s.thread j).holds = true ↔ s.lock = some j)
    (ht : s'.thread = Function.update s.thread i t') (he : (s.thread i).edit = .none)
    (he' : t'.edit = .none) : s'.edit = s.edit := by
  have hi : (s.thread i).holds = true → s.edit = .none := fun hh => by
    unfold State.edit
    rw [(hlock i).mp hh]
    exact he
  rw [h.edit hlock ht, he']
  by_cases hh : (s.thread i).holds = true
  · simp [hh, hi hh]
  · cases h with
    | keep _ hk => simp [hk, hh]
    | acquire h0 _ hk => simp [hk, State.edit, h0]
    | release h0 _ _ => exact absurd h0 hh

/-- **A step that stays off the links** keeps the list. -/
theorem Inv.of_still (h : Inv s L D) (ht : s'.thread = Function.update s.thread i t')
    (hl : LockStep s s' i t') (he : (s.thread i).edit = .none)
    (he' : t'.edit = .none) (hown : ∀ x, OwnerStep i (s.owner x) (s'.owner x))
    (hstill : Still s s' i) (hhead : s'.lensHead = s.lensHead) (h0 : s'.owner 0 = .unused)
    (hlisted : ∀ x ∈ L, (s'.owner x).Listed) (hlinked : ∀ x, s'.owner x = .linked → x ∈ L)
    (hi : ThreadOk s' L i t') (hq : Queues s' D') : Inv s' L D' ∧ Effect s s' L L := by
  have hother : ∀ x j, j ≠ i → (s.owner x).thread = some j →
      s.owner x ≠ .unused ∧ s'.owner x ≠ .unused := by
    intro x j hj hx
    have hne := (Owner.of_thread hx).1
    exact ⟨hne, by rwa [(hown x).other hx hj]⟩
  have hnode : ∀ x, x ∈ L ∨ s.edit.IsOf x → s'.node x = s.node x := by
    rintro x (hx | hx)
    · exact hstill.node x (h.listed x hx).uses.1 (hlisted x hx).uses.1
    · -- the lens of an edit belongs to another thread, the holder of the lock
      unfold State.edit at hx
      cases hlk : s.lock with
      | none =>
        rw [hlk] at hx
        cases hx
      | some j =>
        rw [hlk] at hx
        dsimp only at hx
        have hj : j ≠ i := fun hc => by
          rw [hc, he] at hx
          cases hx
        have hown := (h.thread j).edit_owner hx
        exact hstill.node x (hother x j hj hown).1 (hother x j hj hown).2
  refine ⟨h.of_step ht hl h0 ?_ hlisted hlinked hi (.of_owner hown (fun x j hj hx => ?_)
    (fun x j hj hx => ?_) fun _ _ _ _ hx => hx) hq,
    ⟨i, hown⟩, fun x hx => .inl hx, .inl fun x hx => ?_⟩
  · rw [hl.edit_eq h.lock ht he he', hhead]
    exact h.list.congr (fun y hy => congrArg Node.next (hnode y hy))
      fun y hy => congrArg Node.prev (hnode y hy)
  · obtain ⟨h1, h2⟩ := hother x j hj (by rw [hx]; rfl)
    exact congrArg Node.prev (hstill.node x h1 h2)
  · obtain ⟨h1, h2⟩ := hother x j hj (by rw [hx]; rfl)
    exact hstill.defer x h1 h2 fun hc => hj (by rw [hc] at hx; cases hx; rfl)
  · refine congrArg Node.next (hstill.node x (fun hc => ?_) fun hc => ?_)
    · rw [hc] at hx
      cases hx
    · have := (hown x).published hx
      rw [hc] at this
      cases this

end Threads

end Invariant

end Optics.Traversal
