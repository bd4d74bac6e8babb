import Optics.Registry
import Optics.Lib.Runs

/-! # Threads that register and free lenses under a traversal

The list of lenses step by step. Any number of threads register lenses (`optics_X_alloc`) and free
them (`optics_lens_free`); one poller moves the epoch on (`optics_epoch_inc`) and goes through the
list (`optics_foreach_lens`), in the process that owns the region or in one that has opened it. A
step is one access to shared memory that another thread could tell apart; what only the holder of
the lock writes is stable for the holder, so that it is loaded together with the store it is for.

The allocator is reduced to what its callers see: a block nobody uses, cleared, inside the file,
which may have grown; a block that has been freed, and any other block not in use, may change at
any time the allocator runs. `Owner` says what a block is in use for; no code reads it. -/

namespace Optics.Traversal

open Optics.Base Optics.Regions Optics.Allocator Optics.Lenses Optics.Registry

/-! ### The state -/

/-- The fields of `struct lens` the list is made of; `total` is `lens_total_len`. -/
structure Node where
  next : ℕ
  prev : ℕ
  total : ℕ

/-- `struct optics_defer`. -/
structure Defer where
  off : ℕ
  len : ℕ
  next : ℕ

section
variable (ι : Type)

/-- What a block is in use for. -/
inductive Owner where
  | unused
  /-- a lens a thread registers -/
  | registering (i : ι)
  /-- a lens in the list -/
  | linked
  /-- a lens in the list that a thread frees -/
  | freeing (i : ι)
  /-- a lens a thread has taken off the list -/
  | unlinked (i : ι)
  /-- a lens taken off the list for whose node there was no memory -/
  | leaked
  /-- a lens a node of `epoch_defers` is about -/
  | deferred (node : ℕ)
  /-- a node a thread is about to push on `epoch_defers` -/
  | held (i : ι)
  /-- a node of the list of an epoch, or of the list the poller has taken -/
  | queued (list : Option (Fin 2))

end

/-- Where a thread is. -/
inductive Thread where
  | idle
  /-- `optics_X_alloc`: the lens is allocated -/
  | made (lens : ℕ)
  /-- `optics_lens_alloc`, with the lock from here on -/
  | put (lens : ℕ)
  /-- `lens_set_next`: to store `lens->next` -/
  | setNext (lens : ℕ)
  /-- `lens_set_next`: to store `next->prev` -/
  | setPrev (lens : ℕ)
  /-- `optics_push_lens`: to store the head -/
  | setHead (lens : ℕ)
  /-- the name is taken -/
  | taken (lens : ℕ)
  /-- without the lock: `lens_free` -/
  | drop (lens : ℕ)
  /-- to release the lock and return -/
  | release
  /-- `optics_lens_free` -/
  | free (lens : ℕ)
  /-- with the lock from here on: `htable_del` -/
  | del (lens : ℕ)
  /-- `lens_kill`: to store `next->prev` -/
  | killNext (lens : ℕ)
  /-- `lens_kill`: to store `prev->next` -/
  | killPrev (lens : ℕ)
  /-- `optics_remove_lens`: to store the head -/
  | removeHead (lens : ℕ)
  /-- to release the lock -/
  | removed (lens : ℕ)
  /-- `optics_defer_free`: to allocate the node -/
  | deferFree (lens : ℕ)
  /-- to load the epoch -/
  | deferEpoch (lens node : ℕ)
  /-- to load the head of `epoch_defers` -/
  | deferLoad (lens node : ℕ) (epoch : Fin 2)
  /-- to exchange the head, if it still is `old` -/
  | deferPush (lens node : ℕ) (epoch : Fin 2) (old : ℕ)

/-- The thread has the lock. -/
def Thread.holds : Thread → Bool
  | .put _ | .setNext _ | .setPrev _ | .setHead _ | .taken _ | .release => true
  | .del _ | .killNext _ | .killPrev _ | .removeHead _ | .removed _ => true
  | _ => false

/-- Where the poller is; `seen` are the lenses the callback was called on, the last one first. -/
inductive Poller where
  | idle
  /-- `optics_free_defered`, at a node -/
  | drain (node : ℕ)
  /-- the lens of the node is freed, the node is not -/
  | drained (node : ℕ)
  /-- `optics_foreach_lens`: `off` is loaded -/
  | visit (off : ℕ) (seen : List ℕ)
  /-- the callback has been called on the lens at `off` -/
  | visited (off : ℕ) (seen : List ℕ)

/-- What the poller has mapped. -/
inductive View where
  /-- the owner's mapping, which grows with the file -/
  | whole
  /-- the file at its length when it was opened -/
  | opened (len : ℕ)

/-- `region_ptr` is not null. -/
def View.covers : View → ℕ → ℕ → Bool
  | .whole, _, _ => true
  | .opened n, off, len => (regionPtr (openedRegion n) off len).isSome

/-- `lens_ptr` is not null: the header is mapped, and the lens at the length the header says. -/
def View.coversLens (v : View) (node : ℕ → Node) (off : ℕ) : Bool :=
  v.covers off sizeofLens && v.covers off (node off).total

structure State (ι : Type) where
  len : ℕ
  epoch : ℕ
  epochDefers : Fin 2 → ℕ
  lensHead : ℕ
  node : ℕ → Node
  defer : ℕ → Defer
  owner : ℕ → Owner ι
  lock : Option ι
  thread : ι → Thread
  view : View
  poller : Poller

namespace State
variable {ι : Type}

/-- `optics_epoch`. -/
def opticsEpoch (s : State ι) : Fin 2 := ⟨s.epoch % 2, Nat.mod_lt _ Nat.two_pos⟩

/-- `lens->next` for every offset. -/
def next (s : State ι) (off : ℕ) : ℕ := (s.node off).next

/-- `lens->prev` for every offset. -/
def prev (s : State ι) (off : ℕ) : ℕ := (s.node off).prev

/-- The link of a node of `epoch_defers`. -/
def deferNext (s : State ι) (node : ℕ) : ℕ := (s.defer node).next

/-- The thread moves on. -/
def go [DecidableEq ι] (s : State ι) (i : ι) (t : Thread) : State ι :=
  { s with thread := Function.update s.thread i t }

/-- The poller moves on. -/
def poll (s : State ι) (p : Poller) : State ι := { s with poller := p }

/-- `lens->next = v`, unless `lens` is null. -/
def setNext (s : State ι) (lens v : ℕ) : State ι :=
  { s with node :=
    if lens = 0 then s.node else Function.update s.node lens { s.node lens with next := v } }

/-- `lens->prev = v`, unless `lens` is null. -/
def setPrev (s : State ι) (lens v : ℕ) : State ι :=
  { s with node :=
    if lens = 0 then s.node else Function.update s.node lens { s.node lens with prev := v } }

/-- `pnode->next = v`. -/
def setDeferNext (s : State ι) (n v : ℕ) : State ι :=
  { s with defer := Function.update s.defer n { s.defer n with next := v } }

/-- A block passes to another use. -/
def own (s : State ι) (off : ℕ) (o : Owner ι) : State ι :=
  { s with owner := Function.update s.owner off o }

end State

section Access
variable {ι : Type} (s : State ι) (x v : ℕ)

theorem next_setNext :
    (s.setNext x v).next = if x = 0 then s.next else Function.update s.next x v := by
  funext y
  by_cases h0 : x = 0
  · simp [State.next, State.setNext, h0]
  · by_cases h : y = x
    · simp [State.next, State.setNext, h0, h]
    · simp [State.next, State.setNext, h0, h]

theorem prev_setNext : (s.setNext x v).prev = s.prev := by
  funext y
  by_cases h0 : x = 0
  · simp [State.prev, State.setNext, h0]
  · by_cases h : y = x
    · simp [State.prev, State.setNext, h0, h]
    · simp [State.prev, State.setNext, h0, h]

theorem next_setPrev : (s.setPrev x v).next = s.next := by
  funext y
  by_cases h0 : x = 0
  · simp [State.next, State.setPrev, h0]
  · by_cases h : y = x
    · simp [State.next, State.setPrev, h0, h]
    · simp [State.next, State.setPrev, h0, h]

theorem prev_setPrev :
    (s.setPrev x v).prev = if x = 0 then s.prev else Function.update s.prev x v := by
  funext y
  by_cases h0 : x = 0
  · simp [State.prev, State.setPrev, h0]
  · by_cases h : y = x
    · simp [State.prev, State.setPrev, h0, h]
    · simp [State.prev, State.setPrev, h0, h]

end Access

/-- The allocator has run: blocks that are in use have kept their content. -/
structure Kept {ι : Type} (s s' : State ι) : Prop where
  node : ∀ x, s.owner x ≠ .unused → s'.node x = s.node x
  defer : ∀ x, s.owner x ≠ .unused → s'.defer x = s.defer x

/-! ### The steps of a thread -/

section Steps
variable {ι : Type} [DecidableEq ι]

/-- What the allocator leaves of the content of memory. -/
def State.withMem (s : State ι) (len : ℕ) (node : ℕ → Node) (defer : ℕ → Defer) : State ι :=
  { s with len := len, node := node, defer := defer }

/-- One step of a thread. -/
inductive ThreadStep (s : State ι) (i : ι) : State ι → Prop
  /-- `lens_alloc` -/
  | alloc {off total len : ℕ} {node : ℕ → Node} {defer : ℕ → Defer} (hi : s.thread i = .idle)
      (h0 : off ≠ 0) (hu : s.owner off = .unused) (hlen : s.len ≤ len) (ht : sizeofLens ≤ total)
      (hfit : off + total ≤ len) (hk : Kept s (s.withMem len node defer))
      (hc : node off = ⟨0, 0, total⟩) :
      ThreadStep s i (((s.withMem len node defer).own off (.registering i)).go i (.made off))
  /-- `slock_lock` in `optics_lens_alloc` -/
  | lockPut {lens : ℕ} (hi : s.thread i = .made lens) (hl : s.lock = none) :
      ThreadStep s i ({ s with lock := some i }.go i (.put lens))
  /-- `htable_put` enters the name -/
  | put {lens : ℕ} (hi : s.thread i = .put lens) : ThreadStep s i (s.go i (.setNext lens))
  /-- `htable_put` finds the name -/
  | putTaken {lens : ℕ} (hi : s.thread i = .put lens) : ThreadStep s i (s.go i (.taken lens))
  /-- `lens_set_next` -/
  | setNext {lens : ℕ} (hi : s.thread i = .setNext lens) :
      ThreadStep s i ((s.setNext lens s.lensHead).go i (.setPrev lens))
  | setPrev {lens : ℕ} (hi : s.thread i = .setPrev lens) :
      ThreadStep s i ((s.setPrev (s.next lens) lens).go i (.setHead lens))
  /-- `optics_push_lens` -/
  | setHead {lens : ℕ} (hi : s.thread i = .setHead lens) :
      ThreadStep s i (({ s with lensHead := lens }.own lens .linked).go i .release)
  /-- `slock_unlock` -/
  | release (hi : s.thread i = .release) : ThreadStep s i ({ s with lock := none }.go i .idle)
  | unlockTaken {lens : ℕ} (hi : s.thread i = .taken lens) :
      ThreadStep s i ({ s with lock := none }.go i (.drop lens))
  /-- `lens_free` -/
  | drop {lens : ℕ} {node : ℕ → Node} {defer : ℕ → Defer} (hi : s.thread i = .drop lens)
      (hk : Kept (s.own lens .unused) (s.withMem s.len node defer)) :
      ThreadStep s i (((s.withMem s.len node defer).own lens .unused).go i .idle)
  /-- `optics_lens_free` is called on a lens nobody has freed yet -/
  | free {lens : ℕ} (hi : s.thread i = .idle) (hlens : s.owner lens = .linked) :
      ThreadStep s i ((s.own lens (.freeing i)).go i (.free lens))
  | lockDel {lens : ℕ} (hi : s.thread i = .free lens) (hl : s.lock = none) :
      ThreadStep s i ({ s with lock := some i }.go i (.del lens))
  /-- `htable_del` -/
  | del {lens : ℕ} (hi : s.thread i = .del lens) : ThreadStep s i (s.go i (.killNext lens))
  | delMissing {lens : ℕ} (hi : s.thread i = .del lens) :
      ThreadStep s i ((s.own lens .linked).go i .release)
  /-- `lens_kill` -/
  | killNext {lens : ℕ} (hi : s.thread i = .killNext lens) :
      ThreadStep s i ((s.setPrev (s.next lens) (s.prev lens)).go i (.killPrev lens))
  | killPrev {lens : ℕ} (hi : s.thread i = .killPrev lens) :
      ThreadStep s i ((s.setNext (s.prev lens) (s.next lens)).go i (.removeHead lens))
  /-- `optics_remove_lens` -/
  | removeHead {lens : ℕ} (hi : s.thread i = .removeHead lens) :
      ThreadStep s i (({ s with
        lensHead := if s.lensHead = lens then s.next lens else s.lensHead }.own lens
          (.unlinked i)).go i (.removed lens))
  | unlockRemoved {lens : ℕ} (hi : s.thread i = .removed lens) :
      ThreadStep s i ({ s with lock := none }.go i (.deferFree lens))
  /-- `optics_defer_free`: there is no memory for the node -/
  | deferFail {lens : ℕ} (hi : s.thread i = .deferFree lens) :
      ThreadStep s i ((s.own lens .leaked).go i .idle)
  /-- the node is allocated and written -/
  | deferAlloc {lens n len : ℕ} {node : ℕ → Node} {defer : ℕ → Defer}
      (hi : s.thread i = .deferFree lens) (h0 : n ≠ 0) (hu : s.owner n = .unused)
      (hlen : s.len ≤ len) (hk : Kept s (s.withMem len node defer))
      (hc : defer n = ⟨lens, (s.node lens).total, 0⟩) :
      ThreadStep s i (((s.withMem len node defer).own n (.held i)).go i (.deferEpoch lens n))
  | deferEpoch {lens n : ℕ} (hi : s.thread i = .deferEpoch lens n) :
      ThreadStep s i (s.go i (.deferLoad lens n s.opticsEpoch))
  | deferLoad {lens n : ℕ} {epoch : Fin 2} (hi : s.thread i = .deferLoad lens n epoch) :
      ThreadStep s i ((s.setDeferNext n (s.epochDefers epoch)).go i
        (.deferPush lens n epoch (s.epochDefers epoch)))
  /-- `atomic_compare_exchange_weak` fails, also spuriously -/
  | deferRetry {lens n old : ℕ} {epoch : Fin 2} (hi : s.thread i = .deferPush lens n epoch old) :
      ThreadStep s i ((s.setDeferNext n (s.epochDefers epoch)).go i
        (.deferPush lens n epoch (s.epochDefers epoch)))
  | deferPush {lens n old : ℕ} {epoch : Fin 2} (hi : s.thread i = .deferPush lens n epoch old)
      (hold : s.epochDefers epoch = old) :
      ThreadStep s i ((({ s with epochDefers := Function.update s.epochDefers epoch n }.own n
        (.queued (some epoch))).own lens (.deferred n)).go i .idle)

/-! ### The steps of the poller -/

/-- The blocks of a list the poller takes. -/
def takeList (owner : ℕ → Owner ι) (epoch : Fin 2) (x : ℕ) : Owner ι :=
  match owner x with
  | .queued (some e) => if e = epoch then .queued none else .queued (some e)
  | o => o

/-- One step of the poller. -/
inductive PollerStep (s : State ι) : State ι → Prop
  /-- `optics_open` -/
  | opened (hp : s.poller = .idle) : PollerStep s { s with view := .opened s.len }
  /-- `optics_epoch_inc`: the list of the epoch before is taken -/
  | take (hp : s.poller = .idle) :
      PollerStep s ({ s with
        epochDefers := Function.update s.epochDefers (s.opticsEpoch + 1) 0
        owner := takeList s.owner (s.opticsEpoch + 1) }.poll
          (.drain (s.epochDefers (s.opticsEpoch + 1))))
  /-- a node that is not mapped ends the loop -/
  | leak {n : ℕ} (hp : s.poller = .drain n) (hn : n ≠ 0)
      (hv : s.view.covers n sizeofDefer = false) : PollerStep s (s.poll (.drain 0))
  /-- `optics_free` of the lens -/
  | freeLens {n : ℕ} {node : ℕ → Node} {defer : ℕ → Defer} (hp : s.poller = .drain n) (hn : n ≠ 0)
      (hv : s.view.covers n sizeofDefer = true)
      (hf : s.view.covers (s.defer n).off (roundLen (s.defer n).len) = true)
      (hk : Kept (s.own (s.defer n).off .unused) (s.withMem s.len node defer)) :
      PollerStep s (((s.withMem s.len node defer).own (s.defer n).off .unused).poll (.drained n))
  /-- `alloc_free` returns where the block is not mapped -/
  | leakLens {n : ℕ} (hp : s.poller = .drain n) (hn : n ≠ 0)
      (hv : s.view.covers n sizeofDefer = true)
      (hf : s.view.covers (s.defer n).off (roundLen (s.defer n).len) = false) :
      PollerStep s (s.poll (.drained n))
  /-- `optics_free` of the node -/
  | freeNode {n : ℕ} {node : ℕ → Node} {defer : ℕ → Defer} (hp : s.poller = .drained n)
      (hf : s.view.covers n (roundLen sizeofDefer) = true)
      (hk : Kept (s.own n .unused) (s.withMem s.len node defer)) :
      PollerStep s (((s.withMem s.len node defer).own n .unused).poll (.drain (s.deferNext n)))
  | leakNode {n : ℕ} (hp : s.poller = .drained n)
      (hf : s.view.covers n (roundLen sizeofDefer) = false) :
      PollerStep s (s.poll (.drain (s.deferNext n)))
  /-- `atomic_fetch_add` of the epoch -/
  | inc (hp : s.poller = .drain 0) :
      PollerStep s ({ s with epoch := w64 (s.epoch + 1) }.poll .idle)
  /-- `optics_foreach_lens` loads the head -/
  | head (hp : s.poller = .idle) : PollerStep s (s.poll (.visit s.lensHead []))
  /-- the callback is called -/
  | visit {off : ℕ} {seen : List ℕ} (hp : s.poller = .visit off seen) (h0 : off ≠ 0)
      (hv : s.view.coversLens s.node off = true) :
      PollerStep s (s.poll (.visited off (off :: seen)))
  /-- `lens_next` -/
  | next {off : ℕ} {seen : List ℕ} (hp : s.poller = .visited off seen) :
      PollerStep s (s.poll (.visit (s.next off) seen))
  /-- the traversal ends -/
  | done {seen : List ℕ} (hp : s.poller = .visit 0 seen) : PollerStep s (s.poll .idle)
  /-- `lens_ptr` is null: the traversal ends with an error -/
  | fail {off : ℕ} {seen : List ℕ} (hp : s.poller = .visit off seen) (h0 : off ≠ 0)
      (hv : s.view.coversLens s.node off = false) : PollerStep s (s.poll .idle)

/-- One step of the system. -/
inductive Step (s s' : State ι) : Prop
  | thread (i : ι) (h : ThreadStep s i s')
  | poller (h : PollerStep s s')

/-- A region without lenses, nobody at work. -/
structure Start (s : State ι) : Prop where
  lensHead : s.lensHead = 0
  epochDefers : ∀ e, s.epochDefers e = 0
  owner : ∀ x, s.owner x = .unused
  lock : s.lock = none
  thread : ∀ i, s.thread i = .idle
  poller : s.poller = .idle

/-- The reachable states. -/
def Reachable : State ι → Prop := Lib.Runs.Reachable Start Step

theorem Reachable.of_start {s : State ι} (h : Start s) : Reachable s :=
  Lib.Runs.Reachable.of_start h

theorem Reachable.poller {s s' : State ι} (h : Reachable s) (hs : PollerStep s s') : Reachable s' :=
  Lib.Runs.Reachable.tail h (.poller hs)

end Steps

end Optics.Traversal
