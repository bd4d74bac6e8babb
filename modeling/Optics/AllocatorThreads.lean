import Optics.AllocatorRuns
import Mathlib.Algebra.BigOperators.Group.Finset.Basic
import Mathlib.Data.Fintype.Basic

/-! # Threads in the allocator

`alloc.c` step by step. Any number of threads run `alloc_alloc` and `alloc_free` on one allocator,
write the blocks they were given and hand them to each other. A step is one access to shared memory
that another thread could tell apart, or the work on a block that nobody else has: the `alloc` lists
are only used under the lock, so that a head is loaded together with the store it is for, while the
`free` lists are changed by an exchange (`alloc_alloc`) and by a compare-exchange (`alloc_free`), which
may fail for no reason. `region_grow` has a lock of its own and is one step.

A thread that frees a block may be in another process, whose mapping of the region need not reach
the block: then `region_ptr` is null and the block is neither held nor free any more (`leaked`, which
no code reads). -/

namespace Optics.AllocatorThreads

open Optics.Base Optics.Lib.Bytes Optics.Lib.Tiling Optics.Regions Optics.Allocator
open Optics.AllocatorInv Optics.AllocatorRuns

/-- The slab of a class with blocks of `n` bytes. -/
def slabOf (n : ℕ) : ℕ := n * (if n ≤ allocMidLen then 256 else 16)

/-- `end` in `alloc_fill_class`. -/
def stopOf (start n : ℕ) : ℕ := start + slabOf n / n * n

/-- Where a thread is; `len` is the length it was called with. -/
inductive Thread where
  | idle
  /-- `alloc_alloc`: in `slock_lock` -/
  | locking (len : ℕ)
  /-- with the lock from here on -/
  | locked (len : ℕ)
  /-- the `alloc` list is empty: to exchange the head of `free` -/
  | exchange (len : ℕ)
  /-- the `alloc` list is not empty -/
  | pop (len : ℕ)
  /-- the block is off the list: to clear it -/
  | clear (len off : ℕ)
  /-- to release the lock and return the block -/
  | cleared (len off : ℕ)
  /-- to release the lock and return 0 -/
  | failed (len : ℕ)
  /-- to release the lock, both lists being empty -/
  | empty (len : ℕ)
  /-- `alloc_fill_class`, without the lock: to grow the region -/
  | fill (len : ℕ)
  /-- in the loop, at `node` -/
  | link (len start node : ℕ)
  /-- in `slock_lock`, the slab linked up -/
  | linked (len start : ℕ)
  /-- with the lock from here on: to store `*plast` -/
  | last (len start : ℕ)
  /-- to store the head -/
  | splice (len start : ℕ)
  /-- to release the lock and return the first block -/
  | spliced (len start : ℕ)
  /-- `alloc_free`: to scribble over the block -/
  | free (len off : ℕ)
  /-- to load the head of `free` -/
  | scribbled (len off : ℕ)
  /-- to store `*pnode` -/
  | loaded (len off old : ℕ)
  /-- to exchange the head of `free`, if it still is `old` -/
  | push (len off old : ℕ)
  /-- an assertion failed -/
  | aborted
  deriving DecidableEq

/-- The thread has the lock. -/
def Thread.holds : Thread → Bool
  | .locked _ | .exchange _ | .pop _ | .clear .. | .cleared .. | .failed _ | .empty _ => true
  | .last .. | .splice .. | .spliced .. => true
  | _ => false

/-- The thread is in `slock_lock`. -/
def Thread.waits : Thread → Bool
  | .locking _ | .linked .. => true
  | _ => false

theorem waits_not_holds {t : Thread} (h : t.waits = true) : t.holds = false := by
  cases t <;> first | rfl | cases h

/-- The blocks only this thread knows. -/
def Thread.blocks : Thread → List Block
  | .clear len off | .cleared len off | .spliced len off => [(off, len)]
  | .free len off | .scribbled len off | .loaded len off _ | .push len off _ => [(off, len)]
  | .link len start _ | .linked len start | .last len start | .splice len start =>
    (start, len) :: slab (start + roundLen len) (roundLen len) (slabNodes (roundLen len) - 1)
  | _ => []

/-- The allocator, its lock word, the threads, and the blocks in the hands of callers. -/
structure State (ι : Type) where
  arena : Arena
  lock : Bool
  threads : ι → Thread
  live : List Block
  leaked : List Block

/-- What a caller sees of a step. -/
inductive Event where
  | inside
  | called (len : ℕ)
  | returned (len off : ℕ)
  | freed (b : Block)
  /-- freed through a mapping that does not reach the block -/
  | lost (b : Block)
  | wrote (b : Block)
  deriving DecidableEq

section Model
variable {ι : Type} [DecidableEq ι]

/-- The thread is somewhere else. -/
def State.goto (s : State ι) (i : ι) (t : Thread) : State ι :=
  { s with threads := Function.update s.threads i t }

/-- The lists of the class of a length. -/
def State.class (s : State ι) (len : ℕ) : AllocClass := s.arena.alloc (classOf len)

/-- The head of an `alloc` list is stored. -/
def State.setHead (s : State ι) (len off : ℕ) : State ι :=
  { s with arena := s.arena.setClass (classOf len) { s.class len with alloc := off } }

/-- Memory is stored to. -/
def State.setMem (s : State ι) (m : Mem) : State ι := { s with arena := s.arena.setMem m }

/-- One step of the thread `i`. -/
inductive Step (i : ι) : State ι → Event → State ι → Prop
  /-- a thread calls `alloc_alloc` -/
  | alloc {s : State ι} {len : ℕ} (hi : s.threads i = .idle) (hlen : len ≤ allocMaxLen) :
      Step i s (.called len) (s.goto i (.locking len))
  /-- `slock_lock` finds the lock taken, or its compare-exchange fails -/
  | spin {s : State ι} (hi : (∃ len, s.threads i = .locking len) ∨
      ∃ len start, s.threads i = .linked len start) : Step i s .inside s
  | lock {s : State ι} {len : ℕ} (hi : s.threads i = .locking len) (h : s.lock = false) :
      Step i s .inside { s.goto i (.locked len) with lock := true }
  | tooLong {s : State ι} {len : ℕ} (hi : s.threads i = .locked len)
      (h : ∀ r, allocClass len ≠ .ok r) : Step i s .inside (s.goto i .aborted)
  | head {s : State ι} {len : ℕ} (hi : s.threads i = .locked len) (h : len ≤ allocMaxLen) :
      Step i s .inside (s.goto i (if (s.class len).alloc = 0 then .exchange len else .pop len))
  | exchange {s : State ι} {len : ℕ} (hi : s.threads i = .exchange len) :
      Step i s .inside
        { s.goto i (if (s.class len).free = 0 then .empty len else .pop len) with
          arena := s.arena.setClass (classOf len) ⟨(s.class len).free, 0⟩ }
  | pop {s : State ι} {len p : ℕ} (hi : s.threads i = .pop len)
      (hp : regionPtr s.arena.region (s.class len).alloc (roundLen len) = some p)
      (h : (s.class len).alloc ≠ load64 s.arena.mem p) :
      Step i s .inside ((s.setHead len (load64 s.arena.mem p)).goto i (.clear len p))
  | popNull {s : State ι} {len : ℕ} (hi : s.threads i = .pop len)
      (hp : regionPtr s.arena.region (s.class len).alloc (roundLen len) = none) :
      Step i s .inside (s.goto i (.failed len))
  | popSelf {s : State ι} {len p : ℕ} (hi : s.threads i = .pop len)
      (hp : regionPtr s.arena.region (s.class len).alloc (roundLen len) = some p)
      (h : (s.class len).alloc = load64 s.arena.mem p) : Step i s .inside (s.goto i .aborted)
  | clear {s : State ι} {len off : ℕ} (hi : s.threads i = .clear len off) :
      Step i s .inside
        ((s.setMem (fill s.arena.mem off 0 (roundLen len))).goto i (.cleared len off))
  | ret {s : State ι} {len off : ℕ} (hi : s.threads i = .cleared len off) :
      Step i s (.returned len off)
        { s.goto i .idle with lock := false, live := (off, len) :: s.live }
  | retFailed {s : State ι} {len : ℕ} (hi : s.threads i = .failed len) :
      Step i s (.returned len 0) { s.goto i .idle with lock := false }
  | unlock {s : State ι} {len : ℕ} (hi : s.threads i = .empty len) :
      Step i s .inside { s.goto i (.fill len) with lock := false }
  /-- `region_grow` fails -/
  | growNull {s : State ι} {env : GrowEnv} {len : ℕ} {r : Region} {f : File}
      (hi : s.threads i = .fill len)
      (h : regionGrow env s.arena.region s.arena.file (slabOf (roundLen len)) = .ok (0, r, f)) :
      Step i s (.returned len 0)
        { s.goto i .idle with arena := { s.arena with region := r, file := f } }
  | grow {s : State ι} {env : GrowEnv} {len start : ℕ} {r : Region} {f : File}
      (hi : s.threads i = .fill len)
      (h : regionGrow env s.arena.region s.arena.file (slabOf (roundLen len)) = .ok (start, r, f))
      (h0 : start ≠ 0) (hn : slabOf (roundLen len) / roundLen len > 2) :
      Step i s .inside
        { s.goto i (.link len start (start + roundLen len)) with
          arena := { s.arena with region := r, file := f } }
  | growFew {s : State ι} {env : GrowEnv} {len start : ℕ} {r : Region} {f : File}
      (hi : s.threads i = .fill len)
      (h : regionGrow env s.arena.region s.arena.file (slabOf (roundLen len)) = .ok (start, r, f))
      (h0 : start ≠ 0) (hn : ¬ slabOf (roundLen len) / roundLen len > 2) :
      Step i s .inside
        { s.goto i .aborted with arena := { s.arena with region := r, file := f } }
  /-- one round of the loop -/
  | link {s : State ι} {len start node p : ℕ} (hi : s.threads i = .link len start node)
      (h : node + roundLen len < stopOf start (roundLen len))
      (hp : regionPtr s.arena.region node 8 = some p) :
      Step i s .inside ((s.setMem (store64 s.arena.mem p (node + roundLen len))).goto i
        (.link len start (node + roundLen len)))
  | linkDone {s : State ι} {len start node p : ℕ} (hi : s.threads i = .link len start node)
      (h : ¬ node + roundLen len < stopOf start (roundLen len))
      (hp : regionPtr s.arena.region (stopOf start (roundLen len) - roundLen len) 8 = some p) :
      Step i s .inside (s.goto i (.linked len start))
  /-- a block of the slab, or its last one, cannot be accessed -/
  | linkNull {s : State ι} {len start node : ℕ} (hi : s.threads i = .link len start node)
      (hp : (node + roundLen len < stopOf start (roundLen len) ∧
          regionPtr s.arena.region node 8 = none) ∨
        (¬ node + roundLen len < stopOf start (roundLen len) ∧
          regionPtr s.arena.region (stopOf start (roundLen len) - roundLen len) 8 = none)) :
      Step i s (.returned len 0)
        { s.goto i .idle with leaked := (s.threads i).blocks ++ s.leaked }
  | lockSlab {s : State ι} {len start : ℕ} (hi : s.threads i = .linked len start)
      (h : s.lock = false) : Step i s .inside { s.goto i (.last len start) with lock := true }
  | last {s : State ι} {len start : ℕ} (hi : s.threads i = .last len start) :
      Step i s .inside ((s.setMem (store64 s.arena.mem
        (stopOf start (roundLen len) - roundLen len) (s.class len).alloc)).goto i
          (.splice len start))
  | splice {s : State ι} {len start : ℕ} (hi : s.threads i = .splice len start) :
      Step i s .inside ((s.setHead len (start + roundLen len)).goto i (.spliced len start))
  | retSlab {s : State ι} {len start : ℕ} (hi : s.threads i = .spliced len start) :
      Step i s (.returned len start)
        { s.goto i .idle with lock := false, live := (start, len) :: s.live }
  /-- a thread calls `alloc_free`; `r` is the region as its process has it -/
  | free {s : State ι} {r : Region} {off len : ℕ} (hi : s.threads i = .idle)
      (hb : (off, len) ∈ s.live) (h : len ≤ allocMaxLen)
      (hp : (regionPtr r off (roundLen len)).isSome) :
      Step i s (.freed (off, len))
        { s.goto i (.free len off) with live := s.live.erase (off, len) }
  | freeTooLong {s : State ι} {off len : ℕ} (hi : s.threads i = .idle)
      (hb : (off, len) ∈ s.live) (h : ∀ r, allocClass len ≠ .ok r) :
      Step i s .inside (s.goto i .aborted)
  | freeNull {s : State ι} {r : Region} {off len : ℕ} (hi : s.threads i = .idle)
      (hb : (off, len) ∈ s.live) (h : len ≤ allocMaxLen)
      (hp : regionPtr r off (roundLen len) = none) :
      Step i s (.lost (off, len))
        { s with live := s.live.erase (off, len), leaked := (off, len) :: s.leaked }
  | scribble {s : State ι} {len off : ℕ} (hi : s.threads i = .free len off) :
      Step i s .inside
        ((s.setMem (fill s.arena.mem off 0xFF (roundLen len))).goto i (.scribbled len off))
  | load {s : State ι} {len off : ℕ} (hi : s.threads i = .scribbled len off) :
      Step i s .inside (s.goto i (.loaded len off (s.class len).free))
  | store {s : State ι} {len off old : ℕ} (hi : s.threads i = .loaded len off old) :
      Step i s .inside ((s.setMem (store64 s.arena.mem off old)).goto i (.push len off old))
  | push {s : State ι} {len off old : ℕ} (hi : s.threads i = .push len off old)
      (h : (s.class len).free = old) :
      Step i s .inside
        { s.goto i .idle with
          arena := s.arena.setClass (classOf len) { s.class len with free := off } }
  /-- the compare-exchange fails and reloads the head -/
  | retry {s : State ι} {len off old : ℕ} (hi : s.threads i = .push len off old) :
      Step i s .inside (s.goto i (.loaded len off (s.class len).free))
  /-- a thread stores to a block in the hands of callers -/
  | write {s : State ι} {b : Block} {m : Mem} (hi : s.threads i = .idle) (hb : b ∈ s.live)
      (hm : SameOff s.arena.mem m b.1 (roundLen b.2)) : Step i s (.wrote b) (s.setMem m)

/-- A region just created and its allocator, nobody at work. -/
def Start (s : State ι) : Prop :=
  AllocatorRuns.Start ⟨s.arena, s.live⟩ ∧ s.lock = false ∧ (∀ i, s.threads i = .idle) ∧ s.leaked = []

/-- Some thread takes a step. -/
def Next (s s' : State ι) : Prop := ∃ i ev, Step i s ev s'

/-- The thread can take a step that leads it elsewhere. -/
def CanMove (s : State ι) (i : ι) : Prop := ∃ ev s', Step i s ev s' ∧ s'.threads i ≠ s.threads i

theorem canMove_of_step {s' : State ι} {i : ι} {ev : Event} {t : Thread} (hs : Step i s ev s')
    (ht : s'.threads i = t) (hne : t ≠ s.threads i) : CanMove s i := ⟨ev, s', hs, ht ▸ hne⟩

theorem goto_self (s : State ι) (i : ι) (t : Thread) : (s.goto i t).threads i = t :=
  Function.update_self ..

end Model

end Optics.AllocatorThreads
