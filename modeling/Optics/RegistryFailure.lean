import Optics.RegistryWear

/-! # Calls that fail

A call of the registry that reports a failure should leave it as it was (`Atomic`): the table of
names, the list of lenses, the lists of deferred frees, the blocks of the lenses, and no byte of the
region out of reach of all lists. `call_atomic_iff`: each call does, except for `optics_lens_free`
when no block can be had for the node that is to put off the release; the lens is unregistered then
and its block belongs to nobody. -/

namespace Optics.RegistryFailure

open Optics.Base Optics.Lib.Bytes Optics.Lib.LinkedList Optics.Lib.Tiling Optics.Lib.Runs
open Optics.Regions Optics.Allocator Optics.AllocatorInv
open Optics.AllocatorRuns (blockBase)
open Optics.Lenses Optics.LensBlocks Optics.LensList Optics.Registry Optics.RegistryInv
open Optics.RegistryOps Optics.RegistryRuns Optics.RegistryWear

/-! ### What can be reached -/

/-- A block on a list of the allocator. -/
def OnLists (s : Arena) (b : Block) : Prop :=
  ∃ c ns, (Chain (load64 s.mem) (s.alloc c).alloc ns ∨ Chain (load64 s.mem) (s.alloc c).free ns) ∧
    ∃ n ∈ ns, b = (n, classLen c)

/-- A node on a list of deferred frees, or the block it names. -/
def OnDefers (o : StructOptics) (b : Block) : Prop :=
  ∃ e ns, Chain (deferNext o.arena.mem) (o.epochDefers e) ns ∧ ∃ n ∈ ns,
    b = (n, roundLen sizeofDefer) ∨
      b = (deferOff o.arena.mem n, roundLen (deferLen o.arena.mem n))

/-- The block of a lens on the list. -/
def OfLenses (o : StructOptics) (b : Block) : Prop :=
  ∃ ps, Chain (lensNext o.arena.mem) o.lensHead ps ∧ ∃ p ∈ ps,
    b = (p, roundLen (lensTotalLen o.arena.mem p))

/-- A byte handed out by the region that belongs to no block on any list. -/
def Unreached (o : StructOptics) (a : ℕ) : Prop :=
  blockBase ≤ a ∧ a < o.arena.region.pos ∧
    ∀ b, OfLenses o b ∨ OnDefers o b ∨ OnLists o.arena b → ¬ Covers b a

section Reach
variable {o o' : StructOptics} {ls : List Lens} {D : Fin 2 → List Defer} {lost : List Block}
  {A F A' F' : Fin allocClasses → List ℕ}

theorem onLists_iff (h : Inv o ls D lost A F) (b : Block) :
    OnLists o.arena b ↔ b ∈ listBlocks A ++ listBlocks F := by
  unfold OnLists
  rw [List.mem_append]
  constructor
  · rintro ⟨c, ns, hc | hc, n, hn, rfl⟩
    · rw [hc.unique (h.arena.alloc_chain c)] at hn
      exact Or.inl (mem_listBlocks hn)
    · rw [hc.unique (h.arena.free_chain c)] at hn
      exact Or.inr (mem_listBlocks hn)
  · have key : ∀ B : Fin allocClasses → List ℕ, b ∈ listBlocks B →
        ∃ c, ∃ n ∈ B c, b = (n, classLen c) := by
      intro B hb
      obtain ⟨c, -, hb⟩ := List.mem_flatMap.mp hb
      obtain ⟨n, hn, rfl⟩ := List.mem_map.mp hb
      exact ⟨c, n, hn, rfl⟩
    rintro (hb | hb)
    · obtain ⟨c, hn⟩ := key A hb
      exact ⟨c, A c, Or.inl (h.arena.alloc_chain c), hn⟩
    · obtain ⟨c, hn⟩ := key F hb
      exact ⟨c, F c, Or.inr (h.arena.free_chain c), hn⟩

theorem onDefers_iff (h : Inv o ls D lost A F) (b : Block) :
    OnDefers o b ↔ b ∈ liveBlocks (deferBlocks D) := by
  unfold OnDefers liveBlocks
  rw [List.mem_map]
  constructor
  · rintro ⟨e, ns, hc, n, hn, hb⟩
    rw [hc.unique (h.deferred.chain e)] at hn
    obtain ⟨d, hd, rfl⟩ := List.mem_map.mp hn
    obtain ⟨h1, h2⟩ := h.deferred.fields e d hd
    rw [h1, h2] at hb
    rcases hb with rfl | rfl
    · exact ⟨_, mem_deferBlocks.mpr ⟨e, d, hd, d.node_mem⟩, rfl⟩
    · exact ⟨(d.off, d.len), mem_deferBlocks.mpr ⟨e, d, hd, List.mem_cons_self⟩, rfl⟩
  · rintro ⟨b, hb, rfl⟩
    obtain ⟨e, d, hd, hb⟩ := mem_deferBlocks.mp hb
    refine ⟨e, _, h.deferred.chain e, d.node, List.mem_map_of_mem hd, ?_⟩
    obtain ⟨h1, h2⟩ := h.deferred.fields e d hd
    rw [h1, h2]
    rcases List.mem_cons.mp hb with rfl | hb
    · exact Or.inr rfl
    · rw [List.mem_singleton.mp hb]
      exact Or.inl rfl

theorem ofLenses_iff (h : Inv o ls D lost A F) (b : Block) :
    OfLenses o b ↔ b ∈ liveBlocks (ls.map Lens.block) := by
  have htotal : ∀ l ∈ ls, lensTotalLen o.arena.mem l.off = l.total := fun l hl =>
    (h.linked.lensAt l hl).total_eq (h.total_le hl)
  unfold OfLenses liveBlocks
  rw [List.map_map, List.mem_map]
  constructor
  · rintro ⟨ps, hc, p, hp, rfl⟩
    rw [hc.unique h.linked.list.chain] at hp
    obtain ⟨l, hl, rfl⟩ := List.mem_map.mp hp
    exact ⟨l, hl, by rw [htotal l hl]; rfl⟩
  · rintro ⟨l, hl, rfl⟩
    exact ⟨_, h.linked.list.chain, l.off, List.mem_map_of_mem hl, by rw [htotal l hl]; rfl⟩

/-- **The bytes out of reach** are those of the lost blocks. -/
theorem unreached_iff (h : Inv o ls D lost A F) (a : ℕ) :
    Unreached o a ↔ cover (liveBlocks lost) a ≠ 0 := by
  have hall : (∀ b, OfLenses o b ∨ OnDefers o b ∨ OnLists o.arena b → ¬ Covers b a) ↔
      cover (liveBlocks (held ls D) ++ listBlocks A ++ listBlocks F) a = 0 := by
    rw [cover, List.countP_eq_zero]
    simp only [decide_eq_true_eq]
    refine forall_congr' fun b => imp_congr_left ?_
    rw [ofLenses_iff h, onDefers_iff h, onLists_iff h]
    unfold held liveBlocks
    simp only [List.map_append, List.mem_append, or_assoc]
  have ht := h.arena.tiles a
  have hsplit : liveBlocks (held ls D ++ lost) = liveBlocks (held ls D) ++ liveBlocks lost :=
    List.map_append
  unfold Unreached
  rw [hall]
  simp only [hsplit, cover_append] at ht ⊢
  split_ifs at ht with hin
  · constructor
    · rintro ⟨-, -, h0⟩
      omega
    · exact fun h0 => ⟨hin.1, hin.2, by omega⟩
  · constructor
    · rintro ⟨h1, h2, -⟩
      exact absurd ⟨h1, h2⟩ hin
    · intro h0
      omega

/-! ### Atomicity -/

/-- The registry is as it was, whatever blocks the allocator has gained. -/
structure Atomic (o o' : StructOptics) : Prop where
  keys : o'.keys = o.keys
  list : ∀ ps, DChain (lensNext o'.arena.mem) (lensPrev o'.arena.mem) o'.lensHead ps ↔
    DChain (lensNext o.arena.mem) (lensPrev o.arena.mem) o.lensHead ps
  defers : ∀ e ns, Chain (deferNext o'.arena.mem) (o'.epochDefers e) ns ↔
    Chain (deferNext o.arena.mem) (o.epochDefers e) ns
  named : ∀ b, OnDefers o' b ↔ OnDefers o b
  lenses : ∀ b, OfLenses o' b ↔ OfLenses o b
  /-- no byte has come out of reach -/
  reach : ∀ a, Unreached o' a → Unreached o a

/-- **What leaves the lenses, the nodes and the lost blocks the same is atomic.** -/
theorem atomic_of_inv (h : Inv o ls D lost A F) (h' : Inv o' ls D lost A' F')
    (hk : o'.keys = o.keys) : Atomic o o' where
  keys := hk
  list ps := by
    constructor
    · intro hc
      rw [hc.chain.unique h'.linked.list.chain]
      exact h.linked.list
    · intro hc
      rw [hc.chain.unique h.linked.list.chain]
      exact h'.linked.list
  defers e ns := by
    constructor
    · intro hc
      rw [hc.unique (h'.deferred.chain e)]
      exact h.deferred.chain e
    · intro hc
      rw [hc.unique (h.deferred.chain e)]
      exact h'.deferred.chain e
  named b := by rw [onDefers_iff h, onDefers_iff h']
  lenses b := by rw [ofLenses_iff h, ofLenses_iff h']
  reach a := by rw [unreached_iff h, unreached_iff h']; exact id

theorem not_atomic_of_removed {l1 l2 : List Lens} {l : Lens} (h : Inv o (l1 ++ l :: l2) D lost A F)
    {D' : Fin 2 → List Defer} {lost' : List Block} (h' : Inv o' (l1 ++ l2) D' lost' A' F') :
    ¬ Atomic o o' := by
  intro ha
  have h1 := ((ha.list _).mpr h.linked.list).chain.unique h'.linked.list.chain
  have h2 := congrArg List.length h1
  simp only [List.length_map, List.length_append, List.length_cons] at h2
  omega

end Reach

/-! ### The calls -/

/-- The calls that report a failure by `NULL` or `false`. -/
inductive Call where
  | alloc (name : CStr) (args : LensArgs)
  | allocGet (name : CStr) (args : LensArgs)
  | free (lens : ℕ)

/-- A handle is passed only while its lens is registered. -/
def Call.Valid (regs : List ℕ) : Call → Prop
  | .alloc .. => True
  | .allocGet .. => True
  | .free lens => lens ∈ regs

/-- The call, and whether it reports success. -/
def Call.run (env : GrowEnv) (o : StructOptics) : Call → Outcome (Bool × StructOptics)
  | .alloc name args => do
    let (r, o) ← opticsTypedAlloc env o name args
    .ok (r.isSome, o)
  | .allocGet name args => do
    let (r, o) ← opticsTypedAllocGet env o name args
    .ok (r.isSome, o)
  | .free lens => opticsLensFree env o lens

/-- The call is an `optics_lens_free` for which no node can be had. -/
def Call.Stranded (env : GrowEnv) (o : StructOptics) : Call → Prop
  | .alloc .. => False
  | .allocGet .. => False
  | .free _ => Exhausted env o.arena sizeofDefer

section Calls
variable {o o' : StructOptics} {ls : List Lens} {D : Fin 2 → List Defer} {lost : List Block}
  {A F : Fin allocClasses → List ℕ} {env : GrowEnv} {name : CStr} {args : LensArgs}

theorem AllocSpec.atomic {run : Outcome (Option ℕ × StructOptics)} {found : Lens → Option ℕ}
    (hi : Inv o ls D lost A F) (h : AllocSpec o ls D lost A F env name args run found)
    (hrun : run = .ok (none, o')) : Atomic o o' := by
  by_cases href : RefusedArgs env o.arena name args
  · obtain ⟨s, hrun', hn⟩ := h.refused href
    cases hrun.symm.trans hrun'
    exact atomic_of_inv hi (hi.notAllocated hn) rfl
  by_cases htaken : Taken ls (name.take opticsNameMaxLen)
  · obtain ⟨l, hl, hname⟩ := htaken
    obtain ⟨s, A', F', hrun', hi'⟩ := h.taken href l hl hname
    obtain ⟨-, rfl⟩ := Prod.mk.inj (Except.ok.inj (hrun.symm.trans hrun'))
    exact atomic_of_inv hi hi' rfl
  · rcases h.fresh href htaken with ⟨hdiv, -⟩ | ⟨off, o1, A', F', hrun', -⟩
    · cases hrun.symm.trans hdiv
    · cases hrun.symm.trans hrun'

theorem run_false {x : Outcome (Option ℕ × StructOptics)}
    (h : (do let (r, o) ← x; .ok (r.isSome, o) : Outcome (Bool × StructOptics)) =
      .ok (false, o')) : x = .ok (none, o') := by
  obtain ⟨⟨r, o1⟩, hx, hr⟩ := bind_eq_ok.mp h
  have hr : (r.isSome, o1) = (false, o') := Except.ok.inj hr
  obtain ⟨hr, rfl⟩ := Prod.mk.inj hr
  cases r with
  | none => exact hx
  | some p => cases hr

end Calls

/-- **When a call that fails is atomic.** In every reachable state, whatever calls of `region_grow`
fail: unless it is an `optics_lens_free` that can have no node. -/
theorem call_atomic_iff {s : State} (h : Reachable Start Step s) (env : GrowEnv) {c : Call}
    (hc : c.Valid s.regs) :
    (∀ o', c.run env s.optics = .ok (false, o') → Atomic s.optics o') ↔
      ¬ c.Stranded env s.optics := by
  obtain ⟨ls, D, lost, A, F, hi, hregs⟩ := exists_inv h
  cases c with
  | alloc name args =>
    exact ⟨fun _ => id, fun _ o' hrun =>
      AllocSpec.atomic hi (opticsTypedAlloc_spec hi env name args) (run_false hrun)⟩
  | allocGet name args =>
    exact ⟨fun _ => id, fun _ o' hrun =>
      AllocSpec.atomic hi (opticsTypedAllocGet_spec hi env name args) (run_false hrun)⟩
  | free lens =>
    have hl : lens ∈ s.regs := hc
    rw [← hregs] at hl
    obtain ⟨l, hmem, rfl⟩ := List.mem_map.mp hl
    obtain ⟨l1, l2, rfl⟩ := List.append_of_mem hmem
    obtain ⟨r, o, hrun, -, hres⟩ := opticsLensFree_spec hi env
    rcases hres with ⟨hex, rfl, -, hi'⟩ | ⟨hex, rfl, -⟩
    · exact ⟨fun ha => absurd (ha o hrun) (not_atomic_of_removed hi hi'), fun hn => absurd hex hn⟩
    · refine ⟨fun _ => hex, fun _ o' hrun' => ?_⟩
      cases hrun.symm.trans hrun'

/-- The same of a lens that is registered in a registry just created. -/
theorem call_atomic_iff_first : ∃ o,
    opticsTypedAlloc ⟨true, true⟩ fresh.optics ⟨[97], by decide⟩ .dist = .ok (some 704, o) ∧
      ((∀ o', (Call.free 704).run noGrow o = .ok (false, o') → Atomic o o') ↔
        ¬ (Call.free 704).Stranded noGrow o) := by
  obtain ⟨o, ho⟩ := alloc_fresh
  have hstep : Step fresh ⟨o, [704]⟩ := Step.alloc ho
  have hmem : (Call.free 704).Valid [704] := List.mem_cons_self
  exact ⟨o, ho, call_atomic_iff ((Reachable.of_start start_fresh).tail hstep) noGrow hmem⟩

/-- **A free that fails and is not atomic.** The region is used up, with no free node, but for a slab
that goes to a lens with a long name; its release then finds no node. -/
theorem free_not_atomic : ∃ s lens o', Reachable Start Step s ∧ lens ∈ s.regs ∧
    (Call.free lens).run noGrow s.optics = .ok (false, o') ∧ ¬ Atomic s.optics o' := by
  obtain ⟨s, D, A, F, q, j, hs, hw⟩ := worn_run noGrow 9216 le_rfl
  have hbase : blockBase = 704 := by decide
  have hdef : regionDefaultLen = 1048576 := rfl
  obtain ⟨hi, hregs, -, hvma, hpos, hrounds, hleft, -, hnodes, hothers⟩ := hw
  have hslab : slabLen 273 = 8192 := by decide
  -- the lens takes the last slab
  have hfit : avail A F (classOf 273) = 0 →
      s.optics.arena.region.pos + 8192 ≤ s.optics.arena.region.vmaLen := by omega
  have h512 : avail A F (classOf 273) = 0 := hothers _ (by decide) (by decide)
  have hlen : (letters 200).strnlen opticsNameMaxLen = 200 := letters_strnlen (by decide)
  have hnot : ¬ RefusedArgs noGrow s.optics.arena (letters 200) .gauge := by
    rintro (hc | hc | hc)
    · cases hc
    · rw [letters_length] at hc
      exact absurd hc (by decide)
    · rw [hlen] at hc
      exact ((hi.arena.exhausted_iff noGrow 273).mp hc).2 (Or.inl (by rw [hslab]; exact hfit h512))
  obtain ⟨off, o1, A1, F1, -, hstep, hi1, -, htook, -⟩ := register_empty hi hregs hnot
  rw [newLens_total, hlen] at htook
  have htook : Took s.optics.arena.region A F 273 off o1.arena.region A1 F1 := htook
  obtain ⟨hvma1, hserved⟩ := Took.fits htook hslab (n := 16) (by decide) hfit
  have hnodes1 := htook.others (classOf sizeofDefer) (by decide)
  -- and no node can be had
  have hex : Exhausted noGrow o1.arena sizeofDefer := by
    rw [hi1.arena.exhausted_iff, slabDefer_eq]
    refine ⟨by omega, ?_⟩
    rintro (h | ⟨h, -⟩)
    · omega
    · cases h
  have hi1' : Inv o1 ([] ++ newLens off LensArgs.gauge.dataLen (letters 200) :: []) D [] A1 F1 := hi1
  obtain ⟨r, o', hrun, -, hres⟩ := opticsLensFree_spec hi1' noGrow
  rcases hres with ⟨-, rfl, -, hi2⟩ | ⟨hex', -⟩
  · exact ⟨⟨o1, [off]⟩, off, o', (reachable_of_fresh hs).tail hstep, List.mem_cons_self, hrun,
      not_atomic_of_removed hi1' hi2⟩
  · exact absurd hex hex'

end Optics.RegistryFailure
