import Optics.RegistryOps

/-! # Runs of the registry

The states the registry reaches from `optics_create`, its callers registering, looking up, recording
into and freeing lenses and moving the epoch on, in processes with any mapping, while any of the
calls of `region_grow` fail (`Step`). `State.regs` keeps the handles a caller may use, most recently
registered first.

The registry's invariant holds in all of them (`exists_inv`): the list of lenses and the table of
names agree with what was registered, and no call aborts (`reachable_consistent`). -/

namespace Optics.RegistryRuns

open Optics.Base Optics.Lib.Bytes Optics.Lib.LinkedList Optics.Lib.Tiling Optics.Lib.Probing
open Optics.Lib.Runs Optics.Regions Optics.Allocator Optics.AllocatorInv Optics.AllocatorRuns
open Optics.Lenses Optics.LensBlocks Optics.LensList Optics.Registry Optics.RegistryInv
open Optics.RegistryOps Optics.Utils.Htables Optics.Utils.HtableMap

/-- The registry and the offsets of the lenses that were registered and not freed since. -/
structure State where
  optics : StructOptics
  regs : List ℕ

/-- `optics_create`. -/
def Start (s : State) : Prop :=
  ∃ shmOpen env name now o, opticsCreateAt shmOpen env name now = some o ∧ s = ⟨o, []⟩

/-- The handles once a call has returned `r`, which may be a lens registered before. -/
def entered (regs : List ℕ) : Option ℕ → List ℕ
  | none => regs
  | some p => if p ∈ regs then regs else p :: regs

/-- One call. -/
inductive Step : State → State → Prop
  /-- `optics_X_alloc` -/
  | alloc {s : State} {env : GrowEnv} {name : CStr} {args : LensArgs} {r : Option ℕ}
      {o : StructOptics} (h : opticsTypedAlloc env s.optics name args = .ok (r, o)) :
      Step s ⟨o, r.toList ++ s.regs⟩
  /-- `optics_X_alloc_get` -/
  | allocGet {s : State} {env : GrowEnv} {name : CStr} {args : LensArgs} {r : Option ℕ}
      {o : StructOptics} (h : opticsTypedAllocGet env s.optics name args = .ok (r, o)) :
      Step s ⟨o, entered s.regs r⟩
  /-- `optics_lens_get` -/
  | get {s : State} {name : CStr} {r : Option ℕ} {o : StructOptics}
      (h : opticsLensGet s.optics name = .ok (r, o)) : Step s ⟨o, s.regs⟩
  /-- `optics_lens_free` of a lens that is registered -/
  | free {s : State} {env : GrowEnv} {lens : ℕ} {r : Bool} {o : StructOptics} (hl : lens ∈ s.regs)
      (h : opticsLensFree env s.optics lens = .ok (r, o)) : Step s ⟨o, s.regs.erase lens⟩
  /-- stores into the data of a lens that is registered -/
  | record {s : State} {lens : ℕ} {m : Mem} (hl : lens ∈ s.regs)
      (hm : SameOff s.optics.arena.mem m (lens + sizeofLens) (lensLen s.optics.arena.mem lens)) :
      Step s ⟨s.optics.setArena (s.optics.arena.setMem m), s.regs⟩
  /-- `optics_epoch_inc_at`, in a process that has mapped the region as `view` -/
  | epochInc {s : State} {view : Region} {now lastInc : ℕ} {e : Fin 2} {o : StructOptics}
      (h : opticsEpochIncAt (s.optics.seenBy view) now = .ok (e, lastInc, o)) :
      Step s ⟨o.seenBy s.optics.arena.region, s.regs⟩

/-! ### The invariant -/

/-- The registry's invariant, for lenses at the offsets that were registered. -/
def Holds (s : State) (ls : List Lens) : Prop :=
  ∃ D lost A F, Inv s.optics ls D lost A F ∧ ls.map Lens.off = s.regs

/-- A registry just created has no lenses and has put nothing off. -/
theorem opticsCreateAt_inv {shmOpen : Bool} {env : GrowEnv} {name : CStr} {now : ℕ}
    {o : StructOptics} (h : opticsCreateAt shmOpen env name now = some o) :
    Inv o [] (fun _ => []) [] (fun _ => []) (fun _ => []) := by
  unfold opticsCreateAt at h
  rcases hc : regionCreate shmOpen env name sizeofHeader with _ | ⟨r, f⟩
  · rw [hc] at h
    cases h
  have harena : AllocatorInv.Inv blockBase ⟨r, f, allocInit⟩ [] (fun _ => []) (fun _ => []) :=
    inv_start ⟨shmOpen, env, name, r, f, hc, rfl⟩
  rcases hp : regionPtrUnsafe r 0 sizeofHeader with _ | p
  · simp only [hc, hp, Option.bind_eq_bind, Option.bind_some, Option.bind_none] at h
    cases h
  simp only [hc, hp, Option.bind_eq_bind, Option.bind_some] at h
  unfold opticsSetPrefix at h
  split_ifs at h
  · cases h
  cases h
  exact ⟨harena, ⟨rfl, fun _ hl => absurd hl List.not_mem_nil⟩,
    ⟨fun _ => chain_nil.mpr rfl, fun _ _ hd => absurd hd List.not_mem_nil⟩,
    fun _ hl => absurd hl List.not_mem_nil, ∅, inv_zero, fun k v => by
      simp [Finmap.lookup_empty]⟩

theorem holds_start {s : State} (h : Start s) : Holds s [] := by
  obtain ⟨_, _, _, _, o, hc, rfl⟩ := h
  exact ⟨_, [], _, _, opticsCreateAt_inv hc, rfl⟩

theorem map_off_erase {l1 l2 : List Lens} {l : Lens}
    (h : ((l1 ++ l :: l2).map Lens.off).Nodup) :
    ((l1 ++ l :: l2).map Lens.off).erase l.off = (l1 ++ l2).map Lens.off := by
  rw [List.map_append, List.map_cons] at h
  have hnot := (List.nodup_cons.mp (List.nodup_middle.mp h)).1
  rw [List.mem_append, not_or] at hnot
  rw [List.map_append, List.map_cons, List.erase_append_right _ hnot.1, List.erase_cons_head,
    List.map_append]

/-- After an allocation the lenses are those before, or a new one has joined them. -/
theorem AllocSpec.inv {o o' : StructOptics} {ls : List Lens} {D : Fin 2 → List Defer}
    {lost : List Block} {A F : Fin allocClasses → List ℕ} {env : GrowEnv} {name : CStr}
    {args : LensArgs} {run : Outcome (Option ℕ × StructOptics)} {found : Lens → Option ℕ}
    {r : Option ℕ} (hi : Inv o ls D lost A F) (h : AllocSpec o ls D lost A F env name args run found)
    (hrun : run = .ok (r, o')) :
    (∃ A' F', Inv o' ls D lost A' F' ∧ (r = none ∨ ∃ l ∈ ls, r = found l)) ∨
      ∃ l A' F', Inv o' (l :: ls) D lost A' F' ∧ r = some l.off ∧ l.off ∉ ls.map Lens.off := by
  by_cases href : RefusedArgs env o.arena name args
  · obtain ⟨s1, hrun', hn⟩ := h.refused href
    cases hrun.symm.trans hrun'
    exact Or.inl ⟨A, F, hi.notAllocated hn, Or.inl rfl⟩
  by_cases htaken : Taken ls (name.take opticsNameMaxLen)
  · obtain ⟨l, hl, hname⟩ := htaken
    obtain ⟨s1, A', F', hrun', hi'⟩ := h.taken href l hl hname
    cases hrun.symm.trans hrun'
    exact Or.inl ⟨A', F', hi', Or.inr ⟨l, hl, rfl⟩⟩
  · rcases h.fresh href htaken with ⟨hdiv, -⟩ | ⟨off, o', A', F', hrun', hi', -⟩
    · cases hrun.symm.trans hdiv
    · cases hrun.symm.trans hrun'
      have hnd := hi'.linked.list.chain.nodup
      exact Or.inr ⟨_, A', F', hi', rfl, (List.nodup_cons.mp hnd).1⟩

/-- **Every call keeps the invariant**, and every lens it does not free. -/
theorem holds_step {s s' : State} {ls : List Lens} (h : Holds s ls) (hs : Step s s') :
    ∃ ls', Holds s' ls' ∧ ∀ l ∈ ls, l.off ∈ s'.regs → l ∈ ls' := by
  obtain ⟨D, lost, A, F, hi, hregs⟩ := h
  have hmem : ∀ l ∈ ls, l.off ∈ s.regs := fun l hl => hregs ▸ List.mem_map_of_mem hl
  cases hs with
  | @alloc env name args r o hrun =>
    rcases AllocSpec.inv hi (opticsTypedAlloc_spec hi env name args) hrun with
      ⟨A', F', hi', hr⟩ | ⟨l, A', F', hi', rfl, -⟩
    · have hnone : r = none := hr.elim id fun ⟨_, _, h⟩ => h
      rw [hnone]
      exact ⟨ls, ⟨D, lost, A', F', hi', hregs⟩, fun l hl _ => hl⟩
    · exact ⟨l :: ls, ⟨D, lost, A', F', hi', congrArg (List.cons l.off) hregs⟩,
        fun l hl _ => List.mem_cons_of_mem _ hl⟩
  | @allocGet env name args r o hrun =>
    rcases AllocSpec.inv hi (opticsTypedAllocGet_spec hi env name args) hrun with
      ⟨A', F', hi', hr⟩ | ⟨l, A', F', hi', rfl, hnot⟩
    · have hsame : entered s.regs r = s.regs := by
        rcases hr with rfl | ⟨l, hl, rfl⟩
        · rfl
        · exact if_pos (hmem l hl)
      rw [hsame]
      exact ⟨ls, ⟨D, lost, A', F', hi', hregs⟩, fun l hl _ => hl⟩
    · rw [hregs] at hnot
      have hnew : entered s.regs (some l.off) = l.off :: s.regs := if_neg hnot
      rw [hnew]
      exact ⟨l :: ls, ⟨D, lost, A', F', hi', congrArg (List.cons l.off) hregs⟩,
        fun l hl _ => List.mem_cons_of_mem _ hl⟩
  | @get name r o hrun =>
    obtain ⟨keys, r', hrun', hi', -⟩ := opticsLensGet_spec hi name
    cases hrun.symm.trans hrun'
    exact ⟨ls, ⟨D, lost, A, F, hi', hregs⟩, fun l hl _ => hl⟩
  | @free env lens r o hl hrun =>
    rw [← hregs] at hl
    obtain ⟨l, hmem, rfl⟩ := List.mem_map.mp hl
    obtain ⟨l1, l2, rfl⟩ := List.append_of_mem hmem
    have hnd := hi.placed.nodup
    have herase : (l1 ++ l2).map Lens.off = s.regs.erase l.off := by
      rw [← hregs]
      exact (map_off_erase hnd).symm
    have hkept : ∀ l' ∈ l1 ++ l :: l2, l'.off ∈ s.regs.erase l.off → l' ∈ l1 ++ l2 := by
      intro l' hl' hoff
      rw [← herase] at hoff
      obtain ⟨l'', hl'', he⟩ := List.mem_map.mp hoff
      rwa [← eq_of_off hnd (mem_of_mem_remove hl'') hl' he]
    obtain ⟨r', o', hrun', -, hres⟩ := opticsLensFree_spec hi env
    cases hrun.symm.trans hrun'
    rcases hres with ⟨-, -, -, hi'⟩ | ⟨-, -, node, A', F', -, hi'⟩
    · exact ⟨_, ⟨D, _, A, F, hi', herase⟩, hkept⟩
    · exact ⟨_, ⟨_, lost, A', F', hi', herase⟩, hkept⟩
  | @record lens m hl hm =>
    rw [← hregs] at hl
    obtain ⟨l, hmem, rfl⟩ := List.mem_map.mp hl
    rw [(hi.linked.lensAt l hmem).len] at hm
    exact ⟨ls, ⟨D, lost, A, F, hi.record hmem hm, hregs⟩, fun l hl _ => hl⟩
  | @epochInc view now lastInc e o hrun =>
    obtain ⟨o', kept, F', hrun', hregion, -, -, hd⟩ := opticsEpochIncAt_spec hi view now
    cases hrun.symm.trans hrun'
    rw [show (o'.seenBy view).seenBy s.optics.arena.region = o'.seenBy s.optics.arena.region from rfl,
      ← hregion]
    exact ⟨ls, ⟨_, _, A, F', hd.inv, hregs⟩, fun l hl _ => hl⟩

theorem exists_inv {s : State} (h : Reachable Start Step s) : ∃ ls, Holds s ls :=
  h.invariant (I := fun s => ∃ ls, Holds s ls) (fun _ h0 => ⟨[], holds_start h0⟩)
    fun _ _ ⟨_, hh⟩ hs => (holds_step hh hs).imp fun _ h => h.1

/-! ### Consistency -/

/-- The list and the table of names agree with what was registered. -/
structure Consistent (s : State) : Prop where
  /-- the list visits the lenses in the order of their registration, newest first, and ends -/
  list : DChain (lensNext s.optics.arena.mem) (lensPrev s.optics.arena.mem) s.optics.lensHead s.regs
  once : s.regs.Nodup
  /-- the table maps their names to their offsets -/
  keys : ∀ name off, Stored s.optics.keys.table name off ↔
    off ∈ s.regs ∧ lensName s.optics.arena.mem off = name
  /-- no name is registered twice -/
  names : (s.regs.map (lensName s.optics.arena.mem)).Nodup
  len : s.optics.keys.len = s.regs.length

/-- The calls return, except that an insertion in the table of names may not end. -/
structure Unfailing (s : State) : Prop where
  alloc : ∀ env name args e, opticsTypedAlloc env s.optics name args = .error e → e = .diverge
  allocGet : ∀ env name args e, opticsTypedAllocGet env s.optics name args = .error e → e = .diverge
  get : ∀ name, ∃ r o, opticsLensGet s.optics name = .ok (r, o)
  free : ∀ env, ∀ lens ∈ s.regs, ∃ r o, opticsLensFree env s.optics lens = .ok (r, o)

theorem Holds.names {s : State} {ls : List Lens} (h : Holds s ls) :
    s.regs.map (lensName s.optics.arena.mem) = ls.map Lens.name := by
  obtain ⟨D, lost, A, F, hi, hregs⟩ := h
  rw [← hregs, List.map_map]
  exact List.map_congr_left fun l hl => (hi.linked.lensAt l hl).name_eq (hi.short l hl)

theorem keys_eq_names {ls : List Lens} {M : KeyMap}
    (hM : ∀ k v, M.lookup k = some v ↔ ∃ l ∈ ls, l.name = k ∧ l.off = v) :
    M.keys = (ls.map Lens.name).toFinset := by
  ext k
  rw [Finmap.mem_keys, Finmap.mem_iff, List.mem_toFinset, List.mem_map]
  constructor
  · rintro ⟨v, hv⟩
    obtain ⟨l, hl, hk, -⟩ := (hM k v).mp hv
    exact ⟨l, hl, hk⟩
  · rintro ⟨l, hl, hk⟩
    exact ⟨l.off, (hM k l.off).mpr ⟨l, hl, hk, rfl⟩⟩

theorem consistent_of_holds {s : State} {ls : List Lens} (h : Holds s ls) : Consistent s := by
  have hnames := h.names
  obtain ⟨D, lost, A, F, hi, hregs⟩ := h
  have hname : ∀ l ∈ ls, lensName s.optics.arena.mem l.off = l.name := fun l hl =>
    (hi.linked.lensAt l hl).name_eq (hi.short l hl)
  have hlist := hi.linked.list
  rw [hregs] at hlist
  have hnodup : (ls.map Lens.name).Nodup := by
    refine List.Nodup.map_on (fun l hl l' hl' he => ?_) (List.Nodup.of_map _ hi.placed.nodup)
    exact eq_of_off hi.placed.nodup hl hl' (hi.keys.eq_of_name hl hl' he)
  obtain ⟨M, hM, hkeys⟩ := hi.keys
  refine ⟨hlist, hlist.chain.nodup, fun name off => ?_, by rw [hnames]; exact hnodup, ?_⟩
  · rw [← hM.rep, hkeys, ← hregs, List.mem_map]
    constructor
    · rintro ⟨l, hl, rfl, rfl⟩
      exact ⟨⟨l, hl, rfl⟩, hname l hl⟩
    · rintro ⟨⟨l, hl, rfl⟩, rfl⟩
      exact ⟨l, hl, (hname l hl).symm, rfl⟩
  · rw [hM.len, keys_eq_names hkeys, List.toFinset_card_of_nodup hnodup, List.length_map, ← hregs,
      List.length_map]

theorem unfailing_of_holds {s : State} {ls : List Lens} (h : Holds s ls) : Unfailing s := by
  obtain ⟨D, lost, A, F, hi, hregs⟩ := h
  refine ⟨fun env name args e he => (opticsTypedAlloc_spec hi env name args).fault he,
    fun env name args e he => (opticsTypedAllocGet_spec hi env name args).fault he,
    fun name => ?_, fun env lens hl => ?_⟩
  · obtain ⟨keys, r, hrun, -⟩ := opticsLensGet_spec hi name
    exact ⟨r, _, hrun⟩
  · rw [← hregs] at hl
    obtain ⟨l, hmem, rfl⟩ := List.mem_map.mp hl
    obtain ⟨l1, l2, rfl⟩ := List.append_of_mem hmem
    obtain ⟨r, o, hrun, -⟩ := opticsLensFree_spec hi env
    exact ⟨r, o, hrun⟩

/-- **The registry is consistent in every reachable state**, and no assertion fires in any call made
there. -/
theorem reachable_consistent {s : State} (h : Reachable Start Step s) :
    Consistent s ∧ Unfailing s := by
  obtain ⟨ls, hh⟩ := exists_inv h
  exact ⟨consistent_of_holds hh, unfailing_of_holds hh⟩

/-- A registry just created. -/
def fresh : State :=
  ⟨⟨AllocatorRuns.fresh.arena, 0, 0, fun _ => 0, 0, nameA, Htable.zero⟩, []⟩

theorem start_fresh : Start fresh :=
  ⟨true, ⟨true, true⟩, ⟨[97], by decide⟩, 0, fresh.optics, rfl, rfl⟩

theorem alloc_fresh : ∃ o, opticsTypedAlloc ⟨true, true⟩ fresh.optics ⟨[97], by decide⟩ .dist =
    .ok (some 704, o) := by
  have h : (opticsTypedAlloc ⟨true, true⟩ fresh.optics ⟨[97], by decide⟩ .dist).toOption.map
      Prod.fst = some (some 704) := by decide +kernel
  rcases hr : opticsTypedAlloc ⟨true, true⟩ fresh.optics ⟨[97], by decide⟩ .dist with e | ⟨r, o⟩
  · rw [hr] at h
    cases h
  · rw [hr] at h
    cases h
    exact ⟨o, rfl⟩

/-- Three lenses are registered, one of them is asked for again and another one is freed, which the
epoch passes by. -/
def severalCalls : Outcome ((Option ℕ × Option ℕ × Option ℕ × Bool × Option ℕ) × StructOptics) := do
  let (dist, o) ← opticsTypedAlloc ⟨true, true⟩ fresh.optics nameA .dist
  let (counter, o) ← opticsTypedAlloc ⟨true, true⟩ o nameB .counter
  let (found, o) ← opticsTypedAllocGet ⟨true, true⟩ o nameB .counter
  let (freed, o) ← opticsLensFree ⟨true, true⟩ o 704
  let (_, _, inc) ← opticsEpochIncAt (o.seenBy o.arena.region) 10
  let o := inc.seenBy o.arena.region
  let (histo, o) ← opticsTypedAlloc ⟨true, true⟩ o nameA (.histo [1, 5])
  .ok ((dist, counter, found, freed, histo), o)

theorem several_calls : ∃ o₁ o₂ o₃ o₄ o₅ o₆ e t,
    opticsTypedAlloc ⟨true, true⟩ fresh.optics nameA .dist = .ok (some 704, o₁) ∧
    opticsTypedAlloc ⟨true, true⟩ o₁ nameB .counter = .ok (some 66240, o₂) ∧
    opticsTypedAllocGet ⟨true, true⟩ o₂ nameB .counter = .ok (some 66240, o₃) ∧
    opticsLensFree ⟨true, true⟩ o₃ 704 = .ok (true, o₄) ∧
    opticsEpochIncAt (o₄.seenBy o₄.arena.region) 10 = .ok (e, t, o₅) ∧
    opticsTypedAlloc ⟨true, true⟩ (o₅.seenBy o₄.arena.region) nameA (.histo [1, 5]) =
      .ok (some 99008, o₆) := by
  have hresults : severalCalls.map Prod.fst =
      .ok (some 704, some 66240, some 66240, true, some 99008) := by decide +kernel
  obtain ⟨⟨results, o⟩, hcalls⟩ : ∃ r, severalCalls = .ok r := by
    cases h : severalCalls with
    | ok r => exact ⟨r, rfl⟩
    | error e =>
      rw [h] at hresults
      cases hresults
  rw [hcalls] at hresults
  cases hresults
  obtain ⟨⟨dist, o₁⟩, h₁, hcalls⟩ := bind_eq_ok.mp hcalls
  obtain ⟨⟨counter, o₂⟩, h₂, hcalls⟩ := bind_eq_ok.mp hcalls
  obtain ⟨⟨found, o₃⟩, h₃, hcalls⟩ := bind_eq_ok.mp hcalls
  obtain ⟨⟨freed, o₄⟩, h₄, hcalls⟩ := bind_eq_ok.mp hcalls
  obtain ⟨⟨e, t, o₅⟩, h₅, hcalls⟩ := bind_eq_ok.mp hcalls
  obtain ⟨⟨histo, o₆⟩, h₆, hcalls⟩ := bind_eq_ok.mp hcalls
  cases hcalls
  exact ⟨o₁, o₂, o₃, o₄, o₅, o, e, t, h₁, h₂, h₃, h₄, h₅, h₆⟩

theorem several_reachable : ∃ o, Reachable Start Step ⟨o, [99008, 66240]⟩ := by
  obtain ⟨o₁, o₂, o₃, o₄, o₅, o₆, e, t, h₁, h₂, h₃, h₄, h₅, h₆⟩ := several_calls
  have hs₁ : Reachable Start Step ⟨o₁, [704]⟩ :=
    (Reachable.of_start start_fresh).tail (Step.alloc h₁)
  have hs₂ : Reachable Start Step ⟨o₂, [66240, 704]⟩ := hs₁.tail (Step.alloc (r := some 66240) h₂)
  have hs₃ : Reachable Start Step ⟨o₃, [66240, 704]⟩ := hs₂.tail (Step.allocGet (r := some 66240) h₃)
  have hs₄ : Reachable Start Step ⟨o₄, [66240, 704].erase 704⟩ :=
    hs₃.tail (Step.free (List.mem_cons_of_mem _ List.mem_cons_self) h₄)
  have hs₅ : Reachable Start Step ⟨o₅.seenBy o₄.arena.region, [66240]⟩ :=
    hs₄.tail (Step.epochInc h₅)
  exact ⟨o₆, hs₅.tail (Step.alloc (r := some 99008) h₆)⟩

/-- The registry after these calls. -/
theorem reachable_consistent_several : ∃ o, Reachable Start Step ⟨o, [99008, 66240]⟩ ∧
    Consistent ⟨o, [99008, 66240]⟩ ∧ Unfailing ⟨o, [99008, 66240]⟩ := by
  obtain ⟨o, h⟩ := several_reachable
  exact ⟨o, h, reachable_consistent h⟩

end Optics.RegistryRuns
