import Optics.Regions
import Optics.Lib.Runs
import Optics.Lib.SpinLock
import Optics.Lib.Tiling

/-! # Threads that grow and read a region

`region_grow` and `region_ptr` step by step, run by any number of threads of the process that owns the
region. A grow operation holds the lock: it extends the file, maps it anew beside the old mappings,
stores the pointer to the new mapping and then the new position. `region_ptr` takes no lock: it loads
the pointer and then the position.

* The calls of `region_grow` act one after the other, in the order in which they store the position
  (`Refines`): what they return and leave is what `regionGrow` returns and leaves.
* A pointer that `region_ptr` returns is inside the mapping it was computed from if the bytes were
  handed out before the pointer was loaded. If they were handed out in between it may lie beyond: the
  two loads are in the order of the two stores. -/

namespace Optics.RegionThreads

open Optics.Base Optics.Lib.Runs Optics.Lib.SpinLock Optics.Lib.Tiling Optics.Regions

/-- `struct region_vma`: a mapping of the file from its beginning on. -/
structure Vma where
  ptr : ℕ
  len : ℕ
  deriving DecidableEq

/-- Where a thread is. -/
inductive Thread where
  | idle
  /-- `region_grow`: in `slock_lock` -/
  | locking (len : ℕ)
  /-- with the lock from here on -/
  | locked (len : ℕ)
  /-- to call `ftruncate` -/
  | truncate (len newPos newLen : ℕ)
  /-- to call `mmap` -/
  | map (len newPos newLen : ℕ)
  /-- to store `vma.ptr` -/
  | install (len newPos newLen ptr : ℕ)
  /-- to store `pos` -/
  | publish (len oldPos newPos : ℕ)
  /-- to release the lock and return -/
  | release (len ret : ℕ)
  /-- `region_ptr`: to load `vma.ptr` -/
  | access (off len : ℕ)
  /-- to load `pos`; `seen` is what it was when the pointer was loaded, which no code reads -/
  | loaded (off len : ℕ) (v : Vma) (seen : ℕ)

/-- The thread has the lock. -/
def Thread.holds : Thread → Bool
  | .locked _ | .truncate .. | .map .. | .install .. | .publish .. | .release .. => true
  | _ => false

/-- The fields of `struct region`, the older mappings as a list, and the length of the file. -/
structure Reg where
  minPos : ℕ
  pos : ℕ
  vma : Vma
  old : List Vma
  fileLen : ℕ

/-- `results` are the calls of `region_grow` that took effect, with what they return, the last one
first; no code reads them. -/
structure State (ι : Type) where
  reg : Reg
  lock : Bool
  threads : ι → Thread
  results : List (ℕ × ℕ)

/-- The mappings of the process. -/
def Reg.mappings (r : Reg) : List Vma := r.vma :: r.old

/-- The bytes from `p` on are those of the file from `off` on. -/
def Reg.Maps (r : Reg) (p off len : ℕ) : Prop :=
  ∃ v ∈ r.mappings, p = v.ptr + off ∧ off + len ≤ v.len

/-- The region as a call that begins finds it. -/
def Reg.region (r : Reg) : Region := ⟨true, r.minPos, r.pos, r.vma.len⟩

/-- What a caller sees of a step. -/
inductive Event where
  | inside
  | grown (len ret : ℕ)
  /-- `region_ptr` returns -/
  | accessed (off len : ℕ) (p : Option ℕ)

section Model
variable {ι : Type} [DecidableEq ι]

def State.goto (s : State ι) (i : ι) (t : Thread) : State ι :=
  { s with threads := Function.update s.threads i t }

/-- One step of the thread `i`. -/
inductive Step (i : ι) : State ι → Event → State ι → Prop
  /-- a thread calls `region_grow`, for no more than a mapping of the default length -/
  | grow {s : State ι} {len : ℕ} (hi : s.threads i = .idle) (hlen : len < regionDefaultLen) :
      Step i s .inside (s.goto i (.locking len))
  | spin {s : State ι} {len : ℕ} (hi : s.threads i = .locking len) : Step i s .inside s
  | lock {s : State ι} {len : ℕ} (hi : s.threads i = .locking len) (h : s.lock = false) :
      Step i s .inside { s.goto i (.locked len) with lock := true }
  /-- the mapping is long enough -/
  | fits {s : State ι} {len : ℕ} (hi : s.threads i = .locked len)
      (h : w64 (s.reg.pos + len) ≤ s.reg.vma.len) :
      Step i s .inside (s.goto i (.publish len s.reg.pos (w64 (s.reg.pos + len))))
  | double {s : State ι} {len newLen : ℕ} (hi : s.threads i = .locked len)
      (h : ¬ w64 (s.reg.pos + len) ≤ s.reg.vma.len)
      (hn : growLen 65 s.reg.vma.len (w64 (s.reg.pos + len)) = .ok newLen) :
      Step i s .inside (s.goto i (.truncate len (w64 (s.reg.pos + len)) newLen))
  | truncate {s : State ι} {len newPos newLen : ℕ} (hi : s.threads i = .truncate len newPos newLen)
      (h : newLen < 2 ^ 63) :
      Step i s .inside { s.goto i (.map len newPos newLen) with reg := { s.reg with fileLen := newLen } }
  | noTruncate {s : State ι} {len newPos newLen : ℕ}
      (hi : s.threads i = .truncate len newPos newLen) :
      Step i s .inside { s.goto i (.release len 0) with results := (len, 0) :: s.results }
  /-- `mmap` finds a place beside the mappings there are -/
  | map {s : State ι} {len newPos newLen ptr : ℕ} (hi : s.threads i = .map len newPos newLen)
      (h : ∀ v ∈ s.reg.mappings, ptr + newLen ≤ v.ptr ∨ v.ptr + v.len ≤ ptr) :
      Step i s .inside (s.goto i (.install len newPos newLen ptr))
  | noMap {s : State ι} {len newPos newLen : ℕ} (hi : s.threads i = .map len newPos newLen) :
      Step i s .inside { s.goto i (.release len 0) with results := (len, 0) :: s.results }
  /-- the fields that only the holder of the lock reads are stored together with the pointer -/
  | install {s : State ι} {len newPos newLen ptr : ℕ}
      (hi : s.threads i = .install len newPos newLen ptr) :
      Step i s .inside
        { s.goto i (.publish len s.reg.pos newPos) with
          reg := { s.reg with vma := ⟨ptr, newLen⟩, old := s.reg.mappings } }
  | publish {s : State ι} {len oldPos newPos : ℕ} (hi : s.threads i = .publish len oldPos newPos) :
      Step i s .inside
        { s.goto i (.release len oldPos) with
          reg := { s.reg with pos := newPos }, results := (len, oldPos) :: s.results }
  | release {s : State ι} {len ret : ℕ} (hi : s.threads i = .release len ret) :
      Step i s (.grown len ret) { s.goto i .idle with lock := false }
  /-- a thread calls `region_ptr` -/
  | access {s : State ι} {off len : ℕ} (hi : s.threads i = .idle) (hoff : off < 2 ^ 64)
      (hlen : len < 2 ^ 64) : Step i s .inside (s.goto i (.access off len))
  | header {s : State ι} {off len : ℕ} (hi : s.threads i = .access off len) (h : off < s.reg.minPos) :
      Step i s (.accessed off len none) (s.goto i .idle)
  | load {s : State ι} {off len : ℕ} (hi : s.threads i = .access off len) (h : ¬ off < s.reg.minPos) :
      Step i s .inside (s.goto i (.loaded off len s.reg.vma s.reg.pos))
  | out {s : State ι} {off len seen : ℕ} {v : Vma} (hi : s.threads i = .loaded off len v seen)
      (h : off > s.reg.pos ∨ w64 (off + len) > s.reg.pos) :
      Step i s (.accessed off len none) (s.goto i .idle)
  | ret {s : State ι} {off len seen : ℕ} {v : Vma} (hi : s.threads i = .loaded off len v seen)
      (h : ¬ (off > s.reg.pos ∨ w64 (off + len) > s.reg.pos)) :
      Step i s (.accessed off len (some (v.ptr + off))) (s.goto i .idle)

/-- Some thread takes a step. -/
def Next (s s' : State ι) : Prop := ∃ i ev, Step i s ev s'

end Model

/-! ### The calls one after the other -/

/-- A file without contents. -/
def emptyFile (n : ℕ) : File := ⟨n, fun _ => 0⟩

@[simp] theorem emptyFile_ftruncate (n k : ℕ) : (emptyFile n).ftruncate k = emptyFile k :=
  congrArg (File.mk k) (funext fun _ => ite_self _)

/-- A region, its file, and the calls of `region_grow` so far. -/
structure Grown where
  region : Region
  file : File
  results : List (ℕ × ℕ)

/-- One call of `region_grow` that nothing interrupts. -/
inductive Grow : Grown → Grown → Prop
  | call {g : Grown} {env : GrowEnv} {len ret : ℕ} {r : Region} {f : File}
      (hlen : len < regionDefaultLen) (h : regionGrow env g.region g.file len = .ok (ret, r, f)) :
      Grow g ⟨r, f, (len, ret) :: g.results⟩

/-- `region_create` has succeeded. -/
def Created (g : Grown) : Prop :=
  ∃ shmOpen env name len, 0 < len ∧ Utils.Bits.align len cacheLineLen ≤ regionDefaultLen ∧
    regionCreate shmOpen env name len = some (g.region, g.file) ∧ g.results = []

/-- The threads see the region and the file as the calls so far have left them. -/
structure Settled (r : Reg) (g : Grown) : Prop where
  region : g.region = r.region
  file : g.file = emptyFile r.fileLen

/-- A region just created, nobody at work. -/
structure Start {ι : Type} (s : State ι) : Prop where
  created : ∃ g, Created g ∧ Settled s.reg g
  old : s.reg.old = []
  lock : s.lock = false
  threads : ∀ i, s.threads i = .idle
  results : s.results = []

/-- A call keeps the region in its owner's hands, and its header where it is. -/
theorem Grow.owner {g g' : Grown} (h : Grow g g') (ho : g.region.Owner g.file) :
    g'.region.Owner g'.file ∧ g'.region.minPos = g.region.minPos := by
  cases h with
  | @call env len _ _ _ hlen hrun =>
    obtain ⟨_, _, _, hrun', ho', -, hmin, -⟩ := regionGrow_spec ho env hlen
    rw [hrun'] at hrun
    cases hrun
    exact ⟨ho', hmin⟩

/-! ### What is handed out -/

/-- The bytes that the calls have handed out. -/
def ranges (results : List (ℕ × ℕ)) : List Block :=
  (results.filter fun x => x.2 ≠ 0).map fun x => (x.2, x.1)

/-- Where the first range begins. -/
def base (g : Grown) : ℕ := Utils.Bits.align g.region.minPos cacheLineLen

/-- The ranges that were handed out follow each other. -/
structure HandedOut (g : Grown) : Prop where
  owner : g.region.Owner g.file
  le : base g ≤ g.region.pos
  tiles : Tiles (base g) g.region.pos (ranges g.results)

theorem Created.handedOut {g : Grown} (h : Created g) : HandedOut g := by
  obtain ⟨_, _, _, len, hlen, hfit, hc, hr⟩ := h
  obtain ⟨ho, hmin, hpos⟩ := regionCreate_owner hc hlen hfit
  have hb : base g = g.region.pos := by unfold base; rw [hmin, hpos]
  refine ⟨ho, hb.le, fun a => ?_⟩
  rw [hb, hr, if_neg (by omega)]
  rfl

theorem Grow.handedOut {g g' : Grown} (h : Grow g g') (hg : HandedOut g) : HandedOut g' := by
  obtain ⟨ho, hmin⟩ := h.owner hg.owner
  have hb : base g' = base g := by unfold base; rw [hmin]
  cases h with
  | @call env len ret r f hlen hrun =>
    obtain ⟨_, _, _, hrun', -, -, -, hres⟩ := regionGrow_spec hg.owner env hlen
    rw [hrun'] at hrun
    cases hrun
    have hpos := hg.owner.pos_pos
    rcases hres with ⟨-, rfl, rfl⟩ | ⟨-, rfl, hp, -⟩
    · exact ⟨ho, hg.le, hg.tiles⟩
    · refine ⟨ho, by rw [hb, hp]; exact hg.le.trans (Nat.le_add_right _ _), ?_⟩
      rw [hb]
      refine hg.tiles.extend (fun a => ?_) hg.le (by rw [hp]; exact Nat.le_add_right _ _)
      have hl : ranges ((len, g.region.pos) :: g.results) =
          (g.region.pos, len) :: ranges g.results := by
        unfold ranges
        rw [List.filter_cons_of_pos (by simpa using hpos.ne'), List.map_cons]
      rw [hl, cover_cons, cover_singleton, Nat.add_comm, hp]
      rfl

theorem handedOut_of_reachable {g : Grown} (h : Reachable Created Grow g) : HandedOut g :=
  h.invariant (fun _ hc => hc.handedOut) fun _ _ hg hgrow => hgrow.handedOut hg

/-! ### What a thread knows -/

/-- A call that has found the mapping too short. -/
structure Doubling (r : Reg) (g : Grown) (len newPos newLen : ℕ) : Prop where
  len_lt : len < regionDefaultLen
  region : g.region = r.region
  newPos_eq : newPos = w64 (r.pos + len)
  short : ¬ newPos ≤ r.vma.len
  newLen_eq : growLen 65 r.vma.len newPos = .ok newLen

/-- What a thread knows where it is; `g` is what the calls that took effect have made. -/
def Knows (r : Reg) (g : Grown) : Thread → Prop
  | .idle => True
  | .locking len => len < regionDefaultLen
  | .locked len => len < regionDefaultLen ∧ Settled r g
  | .truncate len newPos newLen => Doubling r g len newPos newLen ∧ g.file = emptyFile r.fileLen
  | .map len newPos newLen => Doubling r g len newPos newLen ∧ newLen < 2 ^ 63 ∧
      r.fileLen = newLen ∧ ∃ n, g.file = emptyFile n
  | .install len newPos newLen ptr => Doubling r g len newPos newLen ∧ newLen < 2 ^ 63 ∧
      r.fileLen = newLen ∧ (∃ n, g.file = emptyFile n) ∧
      ∀ v ∈ r.mappings, ptr + newLen ≤ v.ptr ∨ v.ptr + v.len ≤ ptr
  | .publish len oldPos newPos => len < regionDefaultLen ∧ ∃ env,
      regionGrow env g.region g.file len =
        .ok (oldPos, { r.region with pos := newPos }, emptyFile r.fileLen)
  | .release _ _ => Settled r g
  | .access off len => off < 2 ^ 64 ∧ len < 2 ^ 64
  | .loaded off len v seen => v ∈ r.mappings ∧ seen ≤ v.len ∧ seen ≤ r.pos ∧ ¬ off < r.minPos ∧
      off < 2 ^ 64 ∧ len < 2 ^ 64

/-- Without the lock a thread knows nothing that growth could change. -/
theorem Knows.grown {r r' : Reg} {g g' : Grown} {t : Thread} (h : Knows r g t)
    (ht : t.holds = false) (hm : r.mappings ⊆ r'.mappings) (hp : r.pos ≤ r'.pos)
    (hmin : r'.minPos = r.minPos) : Knows r' g' t := by
  cases t with
  | idle => exact trivial
  | locking len => exact h
  | access off len => exact h
  | loaded off len v seen =>
    exact ⟨hm h.1, h.2.1, h.2.2.1.trans hp, hmin ▸ h.2.2.2.1, h.2.2.2.2⟩
  | _ => cases ht

/-! ### The simulation -/

section Sim
variable {ι : Type}

/-- What the fields say, whoever is at work. -/
structure Sound (r : Reg) (g : Grown) : Prop where
  owner : g.region.Owner g.file
  pos : g.region.pos = r.pos
  minPos : g.region.minPos = r.minPos
  pos_le : r.pos ≤ r.vma.len
  shorter : ∀ v ∈ r.mappings, v.len ≤ r.vma.len
  apart : r.mappings.Pairwise fun v w => v.ptr + v.len ≤ w.ptr ∨ w.ptr + w.len ≤ v.ptr

/-- **The threads simulate the calls one after the other.** -/
structure Sim (s : State ι) (g : Grown) : Prop where
  guarded : Guarded s.lock fun i => (s.threads i).holds
  knows : ∀ i, Knows s.reg g (s.threads i)
  settled : s.lock = false → Settled s.reg g
  sound : Sound s.reg g
  results : g.results = s.results

variable {s : State ι} {g : Grown}

theorem Start.sim (h : Start s) : ∃ g, Created g ∧ Sim s g := by
  obtain ⟨⟨g, hc, hs⟩, hold, hlock, hth, hr⟩ := h
  have ho := hc.handedOut.owner
  have hp := ho.pos_le
  rw [hs.region] at hp
  refine ⟨g, hc, ?_, fun i => by rw [hth i]; exact trivial, fun _ => hs, ⟨ho, by rw [hs.region]; rfl,
    by rw [hs.region]; rfl, hp, fun v hv => ?_, ?_⟩, ?_⟩
  · rw [hlock, show (fun i => (s.threads i).holds) = fun _ => false from funext fun i => by
      rw [hth i]; rfl]
    exact guarded_nobody
  · rw [Reg.mappings, hold, List.mem_singleton] at hv
    exact le_of_eq (congrArg Vma.len hv)
  · rw [Reg.mappings, hold]
    exact List.pairwise_singleton _ _
  · obtain ⟨_, _, _, _, _, _, _, hr'⟩ := hc
    rw [hr', hr]

variable [DecidableEq ι]

theorem Sim.stay (h : Sim s g) {i : ι} {t : Thread} {l : Bool} (hk : Knows s.reg g t)
    (hl : Turn s.lock (s.threads i).holds l t.holds) (hs : l = false → Settled s.reg g) :
    Sim { s.goto i t with lock := l } g := by
  refine ⟨h.guarded.goto hl, fun j => ?_, hs, h.sound, h.results⟩
  rcases eq_or_ne j i with rfl | hji
  · simpa [State.goto] using hk
  · simpa [State.goto, Function.update_of_ne hji] using h.knows j

theorem Sim.change (h : Sim s g) {i : ι} {t : Thread} {r : Reg} {g' : Grown} {l : List (ℕ × ℕ)}
    (hi : (s.threads i).holds = true) (ht : t.holds = true) (hk : Knows r g' t)
    (hs : Sound r g') (hm : s.reg.mappings ⊆ r.mappings) (hp : s.reg.pos ≤ r.pos)
    (hmin : r.minPos = s.reg.minPos) (hr : g'.results = l) :
    Sim { s.goto i t with reg := r, results := l } g' := by
  have hl : s.lock = true := h.guarded.iff.mpr ⟨i, hi⟩
  refine ⟨h.guarded.goto (t := t) (Or.inl ⟨rfl, by rw [hi, ht]⟩), fun j => ?_, fun h0 => ?_, hs, hr⟩
  · rcases eq_or_ne j i with rfl | hji
    · simpa [State.goto] using hk
    · have hj : Knows r g' (s.threads j) :=
        (h.knows j).grown (h.guarded.others hi hji) hm hp hmin
      simpa [State.goto, Function.update_of_ne hji] using hj
  · rw [show s.lock = false from h0] at hl
    cases hl

/-! ### One call -/

/-- What the atomic call does when the mapping is too short. -/
theorem Doubling.grow {r : Reg} {len newPos newLen : ℕ} (h : Doubling r g len newPos newLen)
    (env : GrowEnv) : regionGrow env g.region g.file len =
      if !env.ftruncate || decide (2 ^ 63 ≤ newLen) then .ok (0, g.region, g.file)
      else if !env.mmap then .ok (0, g.region, g.file.ftruncate newLen)
      else .ok (r.pos, { r.region with pos := newPos, vmaLen := newLen },
        g.file.ftruncate newLen) := by
  obtain ⟨-, hr, rfl, hs, hn⟩ := h
  unfold regionGrow
  rw [hr, if_neg (show ¬ (!r.region.owned) = true from Bool.false_ne_true)]
  dsimp only
  rw [if_neg (show ¬ w64 (r.region.pos + len) ≤ r.region.vmaLen from hs),
    show growLen 65 r.region.vmaLen (w64 (r.region.pos + len)) = .ok newLen from hn, ok_bind]
  rfl

theorem Doubling.grow_ok {r : Reg} {len newPos newLen : ℕ} (h : Doubling r g len newPos newLen)
    (hlt : newLen < 2 ^ 63) : regionGrow ⟨true, true⟩ g.region g.file len =
      .ok (r.pos, { r.region with pos := newPos, vmaLen := newLen }, g.file.ftruncate newLen) := by
  rw [h.grow, decide_eq_false (by omega)]
  rfl

theorem Doubling.grow_noTruncate {r : Reg} {len newPos newLen : ℕ}
    (h : Doubling r g len newPos newLen) :
    regionGrow ⟨false, false⟩ g.region g.file len = .ok (0, g.region, g.file) := h.grow _

theorem Doubling.grow_noMap {r : Reg} {len newPos newLen : ℕ} (h : Doubling r g len newPos newLen)
    (hlt : newLen < 2 ^ 63) : regionGrow ⟨true, false⟩ g.region g.file len =
      .ok (0, g.region, g.file.ftruncate newLen) := by
  rw [h.grow, decide_eq_false (by omega)]
  rfl

theorem Doubling.le {r : Reg} {len newPos newLen : ℕ} (h : Doubling r g len newPos newLen)
    (hs : Sound r g) : r.vma.len ≤ newLen := by
  obtain ⟨hlen, hr, rfl, hshort, hn⟩ := h
  have ho := hs.owner
  have h1 := hs.pos_le
  have h2 := ho.vma_ge
  have h3 := ho.vma_lt
  rw [hr] at h2 h3
  change _ ≤ r.vma.len at h2
  change r.vma.len < _ at h3
  have hw : w64 (r.pos + len) = r.pos + len := w64_eq (by unfold regionDefaultLen at *; omega)
  rw [hw] at hn hshort
  rw [growLen_eq (by omega) (by omega) h3] at hn
  cases hn
  omega

theorem Sim.step_fail (h : Sim s g) {i : ι} {len : ℕ} {f : File} {env : GrowEnv} {r : Reg}
    (hi : (s.threads i).holds = true) (hlen : len < regionDefaultLen) (hr : g.region = s.reg.region)
    (hreg : r = { s.reg with fileLen := r.fileLen }) (hf : f = emptyFile r.fileLen)
    (hrun : regionGrow env g.region g.file len = .ok (0, g.region, f)) :
    ∃ g', Grow g g' ∧
      Sim { s.goto i (.release len 0) with reg := r, results := (len, 0) :: s.results } g' := by
  have hg := Grow.call hlen hrun
  refine ⟨_, hg, h.change (t := .release len 0) hi rfl ⟨?_, hf⟩ ?_ ?_ ?_ ?_
    (congrArg _ h.results)⟩
  · rw [hr, hreg]
    rfl
  · rw [hreg]
    exact ⟨(hg.owner h.sound.owner).1, h.sound.pos, h.sound.minPos, h.sound.pos_le,
      h.sound.shorter, h.sound.apart⟩
  · rw [hreg]
    exact fun _ hv => hv
  · rw [hreg]
  · rw [hreg]

theorem Sim.step_publish (h : Sim s g) {i : ι} {len oldPos newPos : ℕ}
    (hi : s.threads i = .publish len oldPos newPos) :
    ∃ g', Grow g g' ∧ Sim { s.goto i (.release len oldPos) with
      reg := { s.reg with pos := newPos }, results := (len, oldPos) :: s.results } g' := by
  have hk := h.knows i
  rw [hi] at hk
  obtain ⟨hlen, env, hrun⟩ := hk
  have hg := Grow.call hlen hrun
  obtain ⟨ho, hmin⟩ := hg.owner h.sound.owner
  refine ⟨_, hg, h.change (t := .release len oldPos) (by rw [hi]; rfl) rfl ⟨rfl, rfl⟩
    ⟨ho, rfl, rfl, ho.pos_le, h.sound.shorter, h.sound.apart⟩ (fun _ hv => hv) ?_ rfl
    (congrArg _ h.results)⟩
  -- the position moves on, by less than would make a word wrap
  obtain ⟨_, r', _, hrun', -, -, -, hres⟩ := regionGrow_spec h.sound.owner env hlen
  rw [hrun'] at hrun
  have hr : r' = { s.reg.region with pos := newPos } := congrArg (fun x => x.2.1) (Except.ok.inj hrun)
  have hp : newPos = r'.pos := by rw [hr]
  have h0 := h.sound.pos
  dsimp only
  rcases hres with ⟨-, -, he⟩ | ⟨-, -, he, -⟩
  · rw [hp, he, h0]
  · rw [hp, he, h0]
    exact Nat.le_add_right _ _

theorem Sim.step_install (h : Sim s g) {i : ι} {len newPos newLen ptr : ℕ}
    (hi : s.threads i = .install len newPos newLen ptr) :
    Sim { s.goto i (.publish len s.reg.pos newPos) with
      reg := { s.reg with vma := ⟨ptr, newLen⟩, old := s.reg.mappings } } g := by
  have hk := h.knows i
  rw [hi] at hk
  obtain ⟨hd, hlt, hfile, ⟨n, hn⟩, hapart⟩ := hk
  have hle := hd.le h.sound
  refine h.change (t := .publish len s.reg.pos newPos) (by rw [hi]; rfl) rfl
    ⟨hd.len_lt, ⟨true, true⟩, ?_⟩ ⟨h.sound.owner, h.sound.pos, h.sound.minPos,
      h.sound.pos_le.trans hle, fun v hv => ?_, ?_⟩ (List.subset_cons_self _ _) le_rfl rfl h.results
  · rw [hd.grow_ok hlt, hn, emptyFile_ftruncate, hfile]
    rfl
  · rcases List.mem_cons.mp hv with rfl | hv
    · exact le_rfl
    · exact (h.sound.shorter v hv).trans hle
  · exact List.Pairwise.cons hapart h.sound.apart

/-- **Every step is a step of the calls one after the other, or none.** -/
theorem Sim.step (h : Sim s g) {s' : State ι} {i : ι} {ev : Event} (hs : Step i s ev s') :
    ∃ g', (g' = g ∨ Grow g g') ∧ Sim s' g' := by
  have hk := h.knows i
  have hquiet : ∀ {t : Thread}, Knows s.reg g t → t.holds = (s.threads i).holds →
      Sim (s.goto i t) g := fun hk ht => h.stay hk (Or.inl ⟨rfl, ht⟩) h.settled
  cases hs with
  | grow hi hlen => exact ⟨g, Or.inl rfl, hquiet hlen (by rw [hi]; rfl)⟩
  | spin => exact ⟨g, Or.inl rfl, h⟩
  | lock hi hfree =>
    rw [hi] at hk
    exact ⟨g, Or.inl rfl, h.stay (t := .locked _) ⟨hk, h.settled hfree⟩
      (Or.inr (Or.inl ⟨hfree, rfl, rfl⟩)) Bool.noConfusion⟩
  | @fits len hi hfit =>
    rw [hi] at hk
    refine ⟨g, Or.inl rfl, hquiet ⟨hk.1, ⟨true, true⟩, ?_⟩ (by rw [hi]; rfl)⟩
    rw [hk.2.region, hk.2.file]
    exact if_pos hfit
  | double hi hshort hn =>
    rw [hi] at hk
    exact ⟨g, Or.inl rfl, hquiet ⟨⟨hk.1, hk.2.region, rfl, hshort, hn⟩, hk.2.file⟩
      (by rw [hi]; rfl)⟩
  | @truncate len newPos newLen hi hlt =>
    rw [hi] at hk
    refine ⟨g, Or.inl rfl, h.change (t := .map len newPos newLen) (by rw [hi]; rfl) rfl
      ⟨⟨hk.1.len_lt, hk.1.region, hk.1.newPos_eq, hk.1.short, hk.1.newLen_eq⟩, hlt, rfl, _, hk.2⟩
      ⟨h.sound.owner, h.sound.pos, h.sound.minPos, h.sound.pos_le, h.sound.shorter, h.sound.apart⟩
      (fun _ hv => hv) le_rfl rfl h.results⟩
  | noTruncate hi =>
    rw [hi] at hk
    obtain ⟨g', hg, hsim⟩ := h.step_fail (i := i) (r := s.reg)
      (by rw [hi]; rfl) hk.1.len_lt hk.1.region rfl hk.2 hk.1.grow_noTruncate
    exact ⟨g', Or.inr hg, hsim⟩
  | @map len newPos newLen ptr hi hapart =>
    rw [hi] at hk
    exact ⟨g, Or.inl rfl, hquiet ⟨hk.1, hk.2.1, hk.2.2.1, hk.2.2.2, hapart⟩ (by rw [hi]; rfl)⟩
  | noMap hi =>
    rw [hi] at hk
    obtain ⟨hd, hlt, hfile, n, hn⟩ := hk
    obtain ⟨g', hg, hsim⟩ := h.step_fail (i := i) (r := s.reg) (f := g.file.ftruncate _)
      (by rw [hi]; rfl) hd.len_lt hd.region rfl (by rw [hn, emptyFile_ftruncate, hfile])
      (hd.grow_noMap hlt)
    exact ⟨g', Or.inr hg, hsim⟩
  | install hi => exact ⟨g, Or.inl rfl, h.step_install hi⟩
  | publish hi =>
    obtain ⟨g', hg, hsim⟩ := h.step_publish hi
    exact ⟨g', Or.inr hg, hsim⟩
  | release hi =>
    rw [hi] at hk
    exact ⟨g, Or.inl rfl, h.stay (t := .idle) trivial
      (Or.inr (Or.inr ⟨by rw [hi]; rfl, rfl, rfl⟩)) fun _ => hk⟩
  | access hi hoff hlen => exact ⟨g, Or.inl rfl, hquiet ⟨hoff, hlen⟩ (by rw [hi]; rfl)⟩
  | header hi => exact ⟨g, Or.inl rfl, hquiet trivial (by rw [hi]; rfl)⟩
  | load hi hmin =>
    rw [hi] at hk
    exact ⟨g, Or.inl rfl, hquiet ⟨List.mem_cons_self, h.sound.pos_le, le_rfl, hmin, hk⟩
      (by rw [hi]; rfl)⟩
  | out hi => exact ⟨g, Or.inl rfl, hquiet trivial (by rw [hi]; rfl)⟩
  | ret hi => exact ⟨g, Or.inl rfl, hquiet trivial (by rw [hi]; rfl)⟩

/-! ### Runs -/

/-- **The calls of `region_grow` act one after the other**, whatever the threads do in between. -/
theorem sim_of_reachable (h : Reachable Start Next s) : ∃ g, Reachable Created Grow g ∧ Sim s g := by
  refine h.invariant (I := fun s => ∃ g, Reachable Created Grow g ∧ Sim s g) (fun s h0 => ?_) ?_
  · obtain ⟨g, hc, hs⟩ := h0.sim
    exact ⟨g, .of_start hc, hs⟩
  · rintro s s' ⟨g, hg, hs⟩ ⟨i, ev, hstep⟩
    obtain ⟨g', rfl | hgrow, hs'⟩ := hs.step hstep
    · exact ⟨g', hg, hs'⟩
    · exact ⟨g', hg.tail hgrow, hs'⟩

theorem Next.mappings {s' : State ι} (h : Next s s') : s.reg.mappings ⊆ s'.reg.mappings := by
  obtain ⟨i, ev, hs⟩ := h
  cases hs with
  | install => exact List.subset_cons_self _ _
  | _ => exact fun _ hv => hv

theorem Maps.later {s' : State ι} {p off len : ℕ} (h : s.reg.Maps p off len)
    (hr : Relation.ReflTransGen Next s s') : s'.reg.Maps p off len := by
  induction hr with
  | refl => exact h
  | tail _ hs ih =>
    obtain ⟨v, hv, hp⟩ := ih
    exact ⟨v, hs.mappings hv, hp⟩

/-! ### The contract -/

/-- The state of a region that threads grow. -/
structure Safe (s : State ι) : Prop where
  /-- the calls one after the other leave the region that a call would find, and hand out the bytes
  behind the header, each once -/
  linear : ∃ g, Reachable Created Grow g ∧ g.results = s.results ∧
    (s.lock = false → Settled s.reg g) ∧ g.region.pos = s.reg.pos ∧ HandedOut g
  guarded : Guarded s.lock fun i => (s.threads i).holds
  apart : s.reg.mappings.Pairwise fun v w => v.ptr + v.len ≤ w.ptr ∨ w.ptr + w.len ≤ v.ptr

/-- What `region_ptr` returns for `len` bytes at `off`, in the state `s`. -/
structure Accessed (s : State ι) (i : ι) (off len : ℕ) (p : Option ℕ) : Prop where
  /-- null exactly outside what was handed out when the position was loaded -/
  isSome : p.isSome ↔ s.reg.minPos ≤ off ∧ off + len ≤ s.reg.pos
  /-- the pointer is into a mapping; if it runs out of it then the bytes were not handed out yet when
  the pointer to the mapping was loaded, and otherwise it is good for ever -/
  mapped : ∀ q, p = some q → ∃ v seen, s.threads i = .loaded off len v seen ∧ v ∈ s.reg.mappings ∧
    q = v.ptr + off ∧ (v.len < off + len → seen < off + len) ∧
    (off + len ≤ seen → ∀ s', Relation.ReflTransGen Next s s' → s'.reg.Maps q off len)

omit [DecidableEq ι] in
theorem Sim.safe (h : Sim s g) (hg : Reachable Created Grow g) : Safe s :=
  ⟨⟨g, hg, h.results, h.settled, h.sound.pos, handedOut_of_reachable hg⟩, h.guarded, h.sound.apart⟩

theorem Sim.accessed (h : Sim s g) {s' : State ι} {i : ι} {off len : ℕ} {p : Option ℕ}
    (hw : off + len < 2 ^ 64) (hs : Step i s (.accessed off len p) s') :
    Accessed s i off len p := by
  have hk := h.knows i
  cases hs with
  | header hi hlt =>
    refine ⟨?_, fun _ h0 => by cases h0⟩
    simp only [Option.isSome_none, Bool.false_eq_true, false_iff]
    omega
  | out hi hout =>
    rw [w64_eq hw] at hout
    refine ⟨?_, fun _ h0 => by cases h0⟩
    simp only [Option.isSome_none, Bool.false_eq_true, false_iff]
    omega
  | @ret _ _ seen v hi hin =>
    rw [w64_eq hw] at hin
    have hk' := hk
    rw [hi] at hk'
    obtain ⟨hv, hseen, -, hmin, -⟩ := hk'
    refine ⟨by simp only [Option.isSome_some, true_iff]; omega, fun q hq => ?_⟩
    cases hq
    exact ⟨v, seen, hi, hv, rfl, fun hlt => by omega,
      fun hle s' hr => Maps.later ⟨v, hv, rfl, by omega⟩ hr⟩

/-- **A region under any number of threads**, some growing it and some asking for pointers into
it. -/
theorem region_threads_safe (h : Reachable Start Next s) : Safe s ∧
    ∀ i off len p s', off + len < 2 ^ 64 → Step i s (.accessed off len p) s' →
      Accessed s i off len p := by
  obtain ⟨g, hg, hsim⟩ := sim_of_reachable h
  exact ⟨hsim.safe hg, fun i off len p s' hw hs => hsim.accessed hw hs⟩

/-- A region just created for a header of one line, and two threads. -/
def first : State (Fin 2) :=
  ⟨⟨64, 64, ⟨4096, regionDefaultLen⟩, [], regionDefaultLen⟩, false, fun _ => .idle, []⟩

/-- The first thread grows the region before the second one loads the pointer to the mapping, and
again before the second one loads the position; this time the file is mapped anew. -/
theorem regrown_reachable : ∃ s : State (Fin 2), Reachable Start Next s ∧
    s.reg = ⟨64, 1400064, ⟨8388608, 2097152⟩, [⟨4096, regionDefaultLen⟩], 2097152⟩ ∧
    s.threads 0 = .release 700000 700064 ∧
    s.threads 1 = .loaded 64 700000 ⟨4096, regionDefaultLen⟩ 700064 := by
  have h0 : Start first := ⟨⟨⟨first.reg.region, emptyFile regionDefaultLen, []⟩, ⟨true, ⟨true, true⟩,
    nameA, 64, by decide, by decide, rfl, rfl⟩, rfl, rfl⟩, rfl, rfl, fun _ => rfl, rfl⟩
  have hgrow : ∀ s : State (Fin 2), s.threads 0 = .idle → Next s (s.goto 0 (.locking 700000)) :=
    fun _ hi => ⟨0, _, .grow hi (by decide)⟩
  have haccess : ∀ s : State (Fin 2), s.threads 1 = .idle →
      Next s (s.goto 1 (.access 64 700000)) :=
    fun _ hi => ⟨1, _, .access hi (by decide) (by decide)⟩
  have h₁ := (((Reachable.of_start h0).tail (hgrow _ rfl)).tail ⟨0, _, .lock rfl rfl⟩).tail
    ⟨0, _, .fits rfl (by decide)⟩
  have h₂ := (h₁.tail ⟨0, _, .publish rfl⟩).tail ⟨0, _, .release rfl⟩
  have h₃ := (h₂.tail (haccess _ rfl)).tail ⟨1, _, .load rfl (by decide)⟩
  have h₄ := ((h₃.tail (hgrow _ rfl)).tail ⟨0, _, .lock rfl rfl⟩).tail
    ⟨0, _, .double rfl (by decide) rfl⟩
  have h₅ := (h₄.tail ⟨0, _, .truncate rfl (by decide)⟩).tail
    ⟨0, _, @Step.map _ _ 0 _ _ _ _ 8388608 rfl (by decide)⟩
  exact ⟨_, (h₅.tail ⟨0, _, .install rfl⟩).tail ⟨0, _, .publish rfl⟩, rfl, rfl, rfl⟩

/-- The pointer into the older mapping is good for ever. -/
theorem region_threads_safe_regrown : ∃ s : State (Fin 2), Safe s ∧
    Accessed s 1 64 700000 (some 4160) := by
  obtain ⟨s, hr, hreg, -, h1⟩ := regrown_reachable
  have h := region_threads_safe hr
  have hin : ¬ (64 > s.reg.pos ∨ w64 (64 + 700000) > s.reg.pos) := by
    rw [hreg]
    decide
  exact ⟨s, h.1, h.2 1 64 700000 (some 4160) _ (by decide) (Step.ret h1 hin)⟩

end Sim

end Optics.RegionThreads
