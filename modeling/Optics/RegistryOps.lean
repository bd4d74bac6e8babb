import Optics.RegistryInv

/-! # The operations of the registry

What the calls of `optics.c` do, as a whole, in a state that meets the registry's invariant: the
allocators of lenses (`opticsTypedAlloc_spec`, `opticsTypedAllocGet_spec`), `opticsLensGet_spec`,
`opticsLensFree_spec` and the release of deferred memory (`opticsFreeDefered_spec`). None of them
aborts or follows a null pointer; an insertion in the table of names is the one step that may not
end. -/

namespace Optics.RegistryOps

open Optics.Base Optics.Lib.Bytes Optics.Lib.LinkedList Optics.Lib.Tiling Optics.Lib.Probing
open Optics.Regions Optics.Allocator Optics.AllocatorInv Optics.AllocatorRuns
open Optics.Lenses Optics.LensBlocks Optics.LensList Optics.Registry Optics.RegistryInv
open Optics.Utils.Htables Optics.Utils.HtableMap

/-! ### The table of names -/

section Keys
variable {keys : Htable} {ls : List Lens} {l : Lens}

/-- Inserting the name always ends. -/
def PutReturns (keys : Htable) (name : CStr) : Prop :=
  ∀ v, ∃ r, htablePut htableHash keys name v = .ok r

theorem keys_put_empty (h : KeysOf keys []) (name : CStr) : PutReturns keys name := by
  obtain ⟨M, hi, hM⟩ := h
  intro v
  obtain ⟨ht1, hr, hi1, hcap, -⟩ := htableResize_window hi
  have hempty : ∀ j k, (bucketAt ht1.table j).key ≠ some k := fun j k hj => by
    obtain ⟨l, hl, -⟩ := (hM k _).mp ((hi1.rep k _).mpr ⟨j, hj, rfl⟩)
    exact absurd hl List.not_mem_nil
  unfold htablePut doublings htablePutFrom
  rw [hr, ok_bind]
  have hscan := putScan_spec ht1.table name (window htableHash ht1.cap name) none
  split at hscan
  · rename_i j hj
    rw [hj]
    exact ⟨_, rfl⟩
  · rename_i e he
    rw [he]
    cases e with
    | some j => exact ⟨_, rfl⟩
    | none =>
      -- a full window has keys
      have hfull := (hscan.2.2 rfl).2 _ (List.mem_map_of_mem
        (List.mem_range.mpr (by decide : 0 < probeWindow)))
      obtain ⟨k, hk⟩ := Option.ne_none_iff_exists'.mp hfull
      exact absurd hk (hempty _ k)

theorem keys_put_taken (h : KeysOf keys ls) (hl : l ∈ ls)
    (hn : l.name.val.length ≤ opticsNameMaxLen) (v : ℕ) :
    htablePut htableHash keys l.name v = .ok (keys, ⟨false, l.off⟩) := by
  obtain ⟨M, hi, hM⟩ := h
  refine htablePut_present hi ?_
  rw [clip_name hn]
  exact (hM _ _).mpr ⟨l, hl, rfl, rfl⟩

theorem keys_put_new (h : KeysOf keys ls) (hl : ¬ Taken ls l.name)
    (hn : l.name.val.length ≤ opticsNameMaxLen) :
    (htablePut htableHash keys l.name l.off = .error .diverge ∧ ¬ PutReturns keys l.name) ∨
      ∃ keys', htablePut htableHash keys l.name l.off = .ok (keys', ⟨true, 0⟩) ∧
        KeysOf keys' (l :: ls) := by
  obtain ⟨M, hi, hM⟩ := h
  rcases hput : htablePut htableHash keys l.name l.off with e | ⟨keys', r⟩
  · refine Or.inl ⟨by rw [htablePutFrom_fault hput], fun hc => ?_⟩
    obtain ⟨r, hr⟩ := hc l.off
    rw [hput] at hr
    cases hr
  have hnone : M.lookup (clip l.name) = none := by
    rw [clip_name hn, Option.eq_none_iff_forall_ne_some]
    intro v hv
    obtain ⟨l', hl', hname, -⟩ := (hM _ _).mp hv
    exact hl ⟨l', hl', hname⟩
  obtain ⟨hi', hr⟩ := htablePut_spec hi hput
  unfold mapPut at hi' hr
  rw [hnone] at hi' hr
  refine Or.inr ⟨keys', by rw [hr], _, hi', fun k v => ?_⟩
  rw [clip_name hn]
  rcases eq_or_ne k l.name with rfl | hne
  · rw [Finmap.lookup_insert, Option.some.injEq]
    constructor
    · rintro rfl
      exact ⟨l, List.mem_cons_self, rfl, rfl⟩
    · rintro ⟨l', hl', hname, rfl⟩
      rcases List.mem_cons.mp hl' with rfl | hl'
      · rfl
      · exact absurd ⟨l', hl', hname⟩ hl
  · rw [Finmap.lookup_insert_of_ne _ hne, hM]
    constructor
    · rintro ⟨l', hl', h1, h2⟩
      exact ⟨l', List.mem_cons_of_mem _ hl', h1, h2⟩
    · rintro ⟨l', hl', h1, h2⟩
      rcases List.mem_cons.mp hl' with rfl | hl'
      · exact absurd h1.symm hne
      · exact ⟨l', hl', h1, h2⟩

theorem keys_del {l1 l2 : List Lens} (h : KeysOf keys (l1 ++ l :: l2))
    (hnd : ((l1 ++ l :: l2).map Lens.off).Nodup) (hn : l.name.val.length ≤ opticsNameMaxLen) :
    ∃ keys', htableDel htableHash keys l.name = .ok (keys', ⟨true, l.off⟩) ∧
      KeysOf keys' (l1 ++ l2) := by
  have hl : l ∈ l1 ++ l :: l2 := by simp
  obtain ⟨M, hi, hM⟩ := h
  have hlook : M.lookup (clip l.name) = some l.off := by
    rw [clip_name hn]
    exact (hM _ _).mpr ⟨l, hl, rfl, rfl⟩
  obtain ⟨keys', hdel, hi'⟩ := htableDel_spec hi l.name
  unfold mapDel at hdel hi'
  rw [hlook] at hdel hi'
  refine ⟨keys', hdel, _, hi', fun k v => ?_⟩
  rw [clip_name hn] at hlook ⊢
  rcases eq_or_ne k l.name with rfl | hne
  · rw [Finmap.lookup_erase]
    refine ⟨fun h => (nomatch h), ?_⟩
    -- another lens of that name would lie at the same offset
    rintro ⟨l', hl', hname, -⟩
    have h1 := (hM l.name l'.off).mpr ⟨l', mem_of_mem_remove hl', hname, rfl⟩
    have h2 := eq_of_off hnd (mem_of_mem_remove hl') hl (Option.some.inj (h1.symm.trans hlook))
    subst h2
    rw [List.map_append, List.map_cons] at hnd
    have h3 := List.nodup_middle.mp hnd
    exact absurd (List.mem_map_of_mem hl') (by rw [List.map_append]; exact (List.nodup_cons.mp h3).1)
  · rw [Finmap.lookup_erase_ne hne, hM]
    constructor
    · rintro ⟨l', hl', h1, h2⟩
      refine ⟨l', ?_, h1, h2⟩
      rcases List.mem_append.mp hl' with h3 | h3
      · exact List.mem_append_left _ h3
      · rcases List.mem_cons.mp h3 with rfl | h3
        · exact absurd h1.symm hne
        · exact List.mem_append_right _ h3
    · rintro ⟨l', hl', h1, h2⟩
      exact ⟨l', mem_of_mem_remove hl', h1, h2⟩

theorem keys_get (h : KeysOf keys ls) (name : CStr) :
    ∃ keys' ret, htableGet htableHash keys name = .ok (keys', ret) ∧ KeysOf keys' ls ∧
      ((ret.ok = false ∧ ¬ Taken ls (clip name)) ∨
        ∃ l ∈ ls, l.name = clip name ∧ ret = ⟨true, l.off⟩) := by
  obtain ⟨M, hi, hM⟩ := h
  obtain ⟨keys', hget, hi', -⟩ := htableGet_spec hi name
  refine ⟨keys', _, hget, ⟨M, hi', hM⟩, ?_⟩
  rcases hl : M.lookup (clip name) with _ | off
  · refine Or.inl ⟨rfl, ?_⟩
    rintro ⟨l, hl', hname⟩
    rw [(hM _ _).mpr ⟨l, hl', hname, rfl⟩] at hl
    cases hl
  · obtain ⟨l, hl', hname, rfl⟩ := (hM _ _).mp hl
    exact Or.inr ⟨l, hl', hname, rfl⟩

end Keys

/-! ### Allocating -/

section Alloc
variable {o : StructOptics} {ls : List Lens} {D : Fin 2 → List Defer} {lost : List Block}
  {A F : Fin allocClasses → List ℕ} {l : Lens}

theorem opticsTypedAlloc_eq (env : GrowEnv) (o : StructOptics) (name : CStr) (args : LensArgs) :
    opticsTypedAlloc env o name args = opticsAlloc o (lensTypedAlloc env o.arena name args) := by
  cases args <;> rfl

theorem opticsTypedAllocGet_eq (env : GrowEnv) (o : StructOptics) (name : CStr)
    (args : LensArgs) :
    opticsTypedAllocGet env o name args = opticsAllocGet o (lensTypedAlloc env o.arena name args) := by
  cases args <;> rfl

/-- A lens that was made can be registered. -/
structure Ready (o : StructOptics) (ls : List Lens) (D : Fin 2 → List Defer) (lost : List Block)
    (A F : Fin allocClasses → List ℕ) (l : Lens) : Prop where
  inv : Inv o ls D (l.block :: lost) A F
  lensAt : LensAt o.arena.mem l
  prev : lensPrev o.arena.mem l.off = 0
  short : l.name.val.length ≤ opticsNameMaxLen

theorem Ready.name_eq (h : Ready o ls D lost A F l) : lensName o.arena.mem l.off = l.name :=
  h.lensAt.name_eq h.short

/-- **A lens whose name is not taken** is registered, unless the insertion does not end. -/
theorem Ready.enter (h : Ready o ls D lost A F l) (hl : ¬ Taken ls l.name) :
    (htablePut htableHash o.keys l.name l.off = .error .diverge ∧ ¬ PutReturns o.keys l.name) ∨
      ∃ keys o', htablePut htableHash o.keys l.name l.off = .ok (keys, ⟨true, 0⟩) ∧
        opticsPushLens { o with keys := keys } l.off = .ok o' ∧ Inv o' (l :: ls) D lost A F ∧
        o'.epoch = o.epoch ∧ o'.epochDefers = o.epochDefers ∧
        o'.arena.region = o.arena.region ∧ o'.keys = keys := by
  rcases keys_put_new h.inv.keys hl h.short with hdiv | ⟨keys, hput, hkeys⟩
  · exact Or.inl hdiv
  · obtain ⟨o', hpush, hi, h4, h1, h2, h3⟩ := h.inv.push h.lensAt h.prev h.short hkeys
    exact Or.inr ⟨keys, o', hput, hpush, hi, h1, h2, h3, h4⟩

/-- **A lens that is not registered** is given back. -/
theorem Ready.drop (h : Ready o ls D lost A F l) :
    ∃ s F', lensFree o.arena l.off = .ok s ∧ Inv (o.setArena s) ls D lost A F' := by
  have hlen := h.inv.arena.live_len l.block (by simp)
  obtain ⟨s, F', hrun, hi, -⟩ := h.inv.free (b := l.block) (List.Perm.refl _)
  refine ⟨s, F', ?_, hi⟩
  unfold lensFree
  rw [h.lensAt.off, h.lensAt.total_eq hlen]
  exact hrun

/-- The first step of an allocator: nothing has changed, or a lens is ready to be registered. -/
theorem lensTypedAlloc_ready (h : Inv o ls D lost A F) (env : GrowEnv) (name : CStr)
    (args : LensArgs) : ∃ r s, lensTypedAlloc env o.arena name args = .ok (r, s) ∧
      ((RefusedArgs env o.arena name args ∧ r = none ∧
          NotAllocated blockBase o.arena (held ls D ++ lost) A F s) ∨
        (¬ RefusedArgs env o.arena name args ∧ ∃ off A' F', r = some off ∧
          Took o.arena.region A F (newLens off args.dataLen name).total off s.region A' F' ∧
          Ready (o.setArena s) ls D lost A' F' (newLens off args.dataLen name))) := by
  obtain ⟨r, s, hrun, hres⟩ := lensTypedAlloc_spec h.arena env name args
  refine ⟨r, s, hrun, hres.imp_right ?_⟩
  rintro ⟨hr, off, A', F', rfl, hm⟩
  refine ⟨hr, off, A', F', rfl, hm.took, h.made hm, hm.lensAt, hm.prev, ?_⟩
  show (name.val.take opticsNameMaxLen).length ≤ opticsNameMaxLen
  exact List.length_take_le _ _

/-- What an allocation does, where `found` says what it returns for a name that is taken. -/
structure AllocSpec (o : StructOptics) (ls : List Lens) (D : Fin 2 → List Defer)
    (lost : List Block) (A F : Fin allocClasses → List ℕ) (env : GrowEnv) (name : CStr)
    (args : LensArgs) (run : Outcome (Option ℕ × StructOptics)) (found : Lens → Option ℕ) :
    Prop where
  refused : RefusedArgs env o.arena name args → ∃ s, run = .ok (none, o.setArena s) ∧
    NotAllocated blockBase o.arena (held ls D ++ lost) A F s
  taken : ¬ RefusedArgs env o.arena name args → ∀ l ∈ ls, l.name = name.take opticsNameMaxLen →
    ∃ s A' F', run = .ok (found l, o.setArena s) ∧ Inv (o.setArena s) ls D lost A' F'
  fresh : ¬ RefusedArgs env o.arena name args → ¬ Taken ls (name.take opticsNameMaxLen) →
    (run = .error .diverge ∧ ¬ PutReturns o.keys (name.take opticsNameMaxLen)) ∨
      ∃ off o' A' F', run = .ok (some off, o') ∧
        Inv o' (newLens off args.dataLen name :: ls) D lost A' F' ∧ o'.epoch = o.epoch ∧
        o'.epochDefers = o.epochDefers ∧
        Took o.arena.region A F (newLens off args.dataLen name).total off o'.arena.region A' F' ∧
        htablePut htableHash o.keys (name.take opticsNameMaxLen) off = .ok (o'.keys, ⟨true, 0⟩)

/-- An allocation fails to return only where an insertion does not end. -/
theorem AllocSpec.fault {env : GrowEnv} {name : CStr} {args : LensArgs}
    {run : Outcome (Option ℕ × StructOptics)} {found : Lens → Option ℕ}
    (h : AllocSpec o ls D lost A F env name args run found) {e : Fault} (he : run = .error e) :
    e = .diverge := by
  by_cases href : RefusedArgs env o.arena name args
  · obtain ⟨s, hrun, -⟩ := h.refused href
    cases he.symm.trans hrun
  by_cases htaken : Taken ls (name.take opticsNameMaxLen)
  · obtain ⟨l, hl, hname⟩ := htaken
    obtain ⟨s, A', F', hrun, -⟩ := h.taken href l hl hname
    cases he.symm.trans hrun
  · rcases h.fresh href htaken with ⟨hdiv, -⟩ | ⟨off, o', A', F', hrun, -⟩
    · cases he.symm.trans hdiv
      rfl
    · cases he.symm.trans hrun

/-- **`optics_X_alloc`.** -/
theorem opticsTypedAlloc_spec (h : Inv o ls D lost A F) (env : GrowEnv) (name : CStr)
    (args : LensArgs) : AllocSpec o ls D lost A F env name args
      (opticsTypedAlloc env o name args) fun _ => none := by
  obtain ⟨r, s, hrun, hres⟩ := lensTypedAlloc_ready h env name args
  rw [opticsTypedAlloc_eq]
  unfold opticsAlloc
  rw [hrun, ok_bind]
  dsimp only
  rcases hres with ⟨hr, rfl, hn⟩ | ⟨hr, off, A', F', rfl, htook, hready⟩
  · exact ⟨fun _ => ⟨s, rfl, hn⟩, fun hc => absurd hr hc, fun hc => absurd hr hc⟩
  set l := newLens off args.dataLen name with hl
  have hoff : off = l.off := rfl
  dsimp only
  unfold opticsLensAlloc
  rw [hoff, hready.name_eq, hready.lensAt.off]
  refine ⟨fun hc => absurd hc hr, fun _ l' hl' hname => ?_, fun _ hnew => ?_⟩
  · have hput := keys_put_taken hready.inv.keys hl' (hready.inv.short l' hl') l.off
    rw [hname, show name.take opticsNameMaxLen = l.name from rfl] at hput
    obtain ⟨s', F'', hfree, hi⟩ := hready.drop
    refine ⟨s', A', F'', ?_, hi⟩
    rw [hput, ok_bind]
    simp only [Bool.false_eq_true, if_false, ok_bind]
    rw [show ({ o.setArena s with keys := (o.setArena s).keys } : StructOptics) = o.setArena s
      from rfl, hfree]
    rfl
  · rcases hready.enter hnew with ⟨hput, hdiv⟩ | ⟨keys, o', hput, hpush, hi, h1, h2, h3, h4⟩
    · refine Or.inl ⟨?_, hdiv⟩
      rw [hput]
      rfl
    · refine Or.inr ⟨off, o', A', F', ?_, hi, h1, h2, by rw [h3]; exact htook,
        by rw [h4]; exact hput⟩
      rw [hput, ok_bind]
      simp only [if_true]
      rw [hpush]
      rfl

/-- **`optics_X_alloc_get`.** -/
theorem opticsTypedAllocGet_spec (h : Inv o ls D lost A F) (env : GrowEnv) (name : CStr)
    (args : LensArgs) : AllocSpec o ls D lost A F env name args
      (opticsTypedAllocGet env o name args) fun l => some l.off := by
  obtain ⟨r, s, hrun, hres⟩ := lensTypedAlloc_ready h env name args
  rw [opticsTypedAllocGet_eq]
  unfold opticsAllocGet
  rw [hrun, ok_bind]
  dsimp only
  rcases hres with ⟨hr, rfl, hn⟩ | ⟨hr, off, A', F', rfl, htook, hready⟩
  · exact ⟨fun _ => ⟨s, rfl, hn⟩, fun hc => absurd hr hc, fun hc => absurd hr hc⟩
  set l := newLens off args.dataLen name with hl
  have hoff : off = l.off := rfl
  dsimp only
  unfold opticsLensAllocGet
  rw [hoff, hready.name_eq, hready.lensAt.off]
  refine ⟨fun hc => absurd hc hr, fun _ l' hl' hname => ?_, fun _ hnew => ?_⟩
  · have hput := keys_put_taken hready.inv.keys hl' (hready.inv.short l' hl') l.off
    rw [hname, show name.take opticsNameMaxLen = l.name from rfl] at hput
    obtain ⟨s', F'', hfree, hi⟩ := hready.drop
    have hne : l'.off ≠ l.off := fun he => hready.inv.defer_ne hl' (b := l.block) (by simp) he.symm
    have hptr : lensPtr (o.setArena s).arena l'.off = some l'.off :=
      lensPtr_live hready.inv.arena (hready.inv.placed.live l' hl')
        (hready.inv.linked.lensAt l' hl')
    refine ⟨s', A', F'', ?_, hi⟩
    rw [hput, ok_bind]
    simp only [Bool.false_eq_true, if_false, ok_bind]
    rw [show ({ o.setArena s with keys := (o.setArena s).keys } : StructOptics) = o.setArena s
      from rfl, hptr, Option.getD_some, if_pos hne, hfree]
    rfl
  · rcases hready.enter hnew with ⟨hput, hdiv⟩ | ⟨keys, o', hput, hpush, hi, h1, h2, h3, h4⟩
    · refine Or.inl ⟨?_, hdiv⟩
      rw [hput]
      rfl
    · refine Or.inr ⟨off, o', A', F', ?_, hi, h1, h2, by rw [h3]; exact htook,
        by rw [h4]; exact hput⟩
      rw [hput, ok_bind]
      simp only [if_true]
      rw [hpush, ok_bind, ok_bind, if_neg (fun hc => hc rfl)]
      rfl

/-! ### Looking up and freeing -/

/-- **`optics_lens_get`** finds the lens of the name, if there is one. -/
theorem opticsLensGet_spec (h : Inv o ls D lost A F) (name : CStr) :
    ∃ keys r, opticsLensGet o name = .ok (r, { o with keys := keys }) ∧
      Inv { o with keys := keys } ls D lost A F ∧
      ((r = none ∧ ¬ Taken ls (clip name)) ∨ ∃ l ∈ ls, l.name = clip name ∧ r = some l.off) := by
  obtain ⟨keys, ret, hget, hkeys, hret⟩ := keys_get h.keys name
  have hinv : Inv { o with keys := keys } ls D lost A F :=
    ⟨h.arena, h.linked, h.deferred, h.short, hkeys⟩
  unfold opticsLensGet
  rw [hget, ok_bind]
  dsimp only
  rcases hret with ⟨hok, hnot⟩ | ⟨l, hl, hname, rfl⟩
  · rw [hok]
    exact ⟨keys, none, rfl, hinv, Or.inl ⟨rfl, hnot⟩⟩
  · have hptr : lensPtr o.arena l.off = some l.off :=
      lensPtr_live h.arena (h.placed.live l hl) (h.linked.lensAt l hl)
    rw [if_pos rfl, hptr]
    exact ⟨keys, some l.off, rfl, hinv, Or.inr ⟨l, hl, hname, rfl⟩⟩

/-- **`optics_lens_free`** unregisters the lens; whether its memory is put on a list of deferred
frees depends on whether a node for it can be had. -/
theorem opticsLensFree_spec {l1 l2 : List Lens} (h : Inv o (l1 ++ l :: l2) D lost A F)
    (env : GrowEnv) :
    ∃ r o', opticsLensFree env o l.off = .ok (r, o') ∧ o'.epoch = o.epoch ∧
      ((Exhausted env o.arena sizeofDefer ∧ r = false ∧ o'.epochDefers = o.epochDefers ∧
          Inv o' (l1 ++ l2) D (l.block :: lost) A F) ∨
        (¬ Exhausted env o.arena sizeofDefer ∧ r = true ∧ ∃ node A' F',
          Took o.arena.region A F sizeofDefer node o'.arena.region A' F' ∧ Inv o' (l1 ++ l2)
            (Function.update D (opticsEpoch o) (⟨node, l.off, l.total⟩ :: D (opticsEpoch o)))
            lost A' F')) := by
  have hl : l ∈ l1 ++ l :: l2 := by simp
  have hshort := h.short l hl
  have hlen := h.total_le hl
  obtain ⟨keys, hdel, hkeys⟩ := keys_del h.keys h.placed.nodup hshort
  obtain ⟨o1, hrem, hi1, hat, halloc, hregion, -, hepoch, hdefers⟩ := h.remove hkeys
  obtain ⟨r, o2, hdef, -, hepoch2, hres⟩ := hi1.defer env
  have hex : Exhausted env o1.arena sizeofDefer ↔ Exhausted env o.arena sizeofDefer := by
    unfold Exhausted
    rw [halloc, hregion]
  have heq : opticsEpoch o1 = opticsEpoch o := by
    unfold opticsEpoch
    simp only [hepoch]
  refine ⟨r, o2, ?_, hepoch2.trans hepoch, ?_⟩
  · unfold opticsLensFree
    rw [(h.linked.lensAt l hl).name_eq hshort, hdel, ok_bind]
    simp only [Bool.not_true, Bool.false_eq_true, if_false]
    rw [hrem, ok_bind, hat.off, hat.total_eq hlen]
    exact hdef
  · rw [hex, heq, hregion] at hres
    rcases hres with ⟨h1, h2, h3, h4⟩ | h1
    · exact Or.inl ⟨h1, h2, h3.trans hdefers, h4⟩
    · exact Or.inr h1

end Alloc

/-! ### Releasing deferred memory -/

section Release
variable {lo : ℕ} {s : Arena} {A F : Fin allocClasses → List ℕ}

/-- The process can access the block, at the length it is rounded up to. -/
def Mapped (view : Region) (b : Block) : Prop := (regionPtr view b.1 (roundLen b.2)).isSome

instance (view : Region) (b : Block) : Decidable (Mapped view b) := by
  unfold Mapped; infer_instance

/-- The arena as a process with another mapping sees it. -/
abbrev seen (s : Arena) (view : Region) : Arena := { s with region := view }

/-- What the release of the blocks `bs` through the mapping `view` leaves: those of `kept`, which
are none if all were mapped, are on no free list. -/
structure Released (lo : ℕ) (view : Region) (s : Arena) (bs rest : List Block)
    (F : Fin allocClasses → List ℕ) (s' : Arena) (kept : List Block)
    (A F' : Fin allocClasses → List ℕ) : Prop where
  inv : AllocatorInv.Inv lo s' (kept ++ rest) A F'
  region : s'.region = s.region
  frame : Agree s.mem s'.mem rest
  grows : ∀ c, F c ⊆ F' c
  sub : kept ⊆ bs
  freed : ∀ b ∈ bs, b ∈ kept ∨ b.1 ∈ F' (classOf b.2)
  all : kept = [] ↔ ∀ b ∈ bs, Mapped view b

theorem released_refl {view : Region} {rest : List Block} (h : AllocatorInv.Inv lo s rest A F) :
    Released lo view s [] rest F s [] A F :=
  ⟨h, rfl, Agree.refl _ _, fun _ => List.Subset.refl _, List.Subset.refl _, by simp, by simp⟩

section Compose
variable {view : Region} {s1 s2 : Arena} {bs1 bs2 rest kept1 kept2 : List Block}
  {F1 F2 : Fin allocClasses → List ℕ}

theorem Released.next (h : Released lo view s bs1 (bs2 ++ rest) F s1 kept1 A F1) :
    AllocatorInv.Inv lo s1 (bs2 ++ (kept1 ++ rest)) A F1 :=
  h.inv.perm (List.perm_append_comm_assoc ..)

/-- **Releasing one list of blocks after the other.** -/
theorem Released.trans (h1 : Released lo view s bs1 (bs2 ++ rest) F s1 kept1 A F1)
    (h2 : Released lo view s1 bs2 (kept1 ++ rest) F1 s2 kept2 A F2) :
    Released lo view s (bs1 ++ bs2) rest F s2 (kept2 ++ kept1) A F2 where
  inv := by
    rw [List.append_assoc]
    exact h2.inv
  region := h2.region.trans h1.region
  frame := (h1.frame.subset (List.subset_append_right ..)).trans
    (h2.frame.subset (List.subset_append_right ..))
  grows c := List.Subset.trans (h1.grows c) (h2.grows c)
  sub b hb := by
    rcases List.mem_append.mp hb with hb | hb
    · exact List.mem_append_right _ (h2.sub hb)
    · exact List.mem_append_left _ (h1.sub hb)
  freed b hb := by
    rcases List.mem_append.mp hb with hb | hb
    · exact (h1.freed b hb).imp (List.mem_append_right _) fun h => h2.grows _ h
    · exact (h2.freed b hb).imp_left (List.mem_append_left _)
  all := by
    rw [List.append_eq_nil_iff, h1.all, h2.all, List.forall_mem_append, and_comm]

end Compose

/-- **Freeing a block through another mapping**: a block that is not mapped is forgotten. -/
theorem allocFree_seen {b : Block} {rest : List Block} (h : AllocatorInv.Inv lo s (b :: rest) A F)
    (view : Region) : ∃ s' kept F', allocFree (seen s view) b.1 b.2 = .ok (seen s' view) ∧
      Released lo view s [b] rest F s' kept A F' := by
  have hlen := h.live_len b List.mem_cons_self
  have hb : (b.1, b.2) ∈ b :: rest := List.mem_cons_self
  obtain ⟨s', hrun, hi, hregion, hoff⟩ := allocFree_spec h hb
  rw [show (b.1, b.2) = b from rfl, List.erase_cons_head] at hi
  unfold allocFree at hrun ⊢
  rw [opticsAssert_pos hlen, ok_bind, allocClass_eq hlen, ok_bind] at hrun ⊢
  dsimp only at hrun ⊢
  rw [h.ptr List.mem_cons_self le_rfl] at hrun
  rcases hp : regionPtr view b.1 (roundLen b.2) with _ | p
  · have hm : ¬ Mapped view b := by
      unfold Mapped
      rw [hp]
      exact Bool.false_ne_true
    exact ⟨s, [b], F, rfl, h, rfl, Agree.refl _ _, fun c => List.Subset.refl _, List.Subset.refl _,
      fun b' hb' => Or.inl hb', fun h => (nomatch h),
      fun h => absurd (h b List.mem_cons_self) hm⟩
  · obtain ⟨rfl, -⟩ := regionPtr_eq_some hp
    have hs' := Except.ok.inj hrun
    have hm : Mapped view b := by
      unfold Mapped
      rw [hp]
      rfl
    refine ⟨s', [], _, ?_, hi, hregion, agree_of_sameOff h hoff, fun c => ?_, List.nil_subset _, ?_, ?_⟩
    · rw [← hs']
      rfl
    · rcases eq_or_ne c (classOf b.2) with rfl | hne
      · rw [Function.update_self]; exact List.subset_cons_self ..
      · rw [Function.update_of_ne hne]; exact List.Subset.refl _
    · rw [List.forall_mem_singleton, Function.update_self]
      exact Or.inr List.mem_cons_self
    · rw [List.forall_mem_singleton]
      exact ⟨fun _ => hm, fun _ => rfl⟩

/-- A node that cannot be read cannot be freed either. -/
theorem not_mapped_of_node {view : Region} {node : ℕ} (h63 : node + 32 < 2 ^ 64)
    (h : regionPtr view node sizeofDefer = none) : ¬ Mapped view (node, sizeofDefer) := by
  have hs : sizeofDefer = 24 := rfl
  have hr : roundLen sizeofDefer = 32 := rfl
  unfold Mapped
  rw [regionPtr_isSome (by dsimp only; omega)]
  have h0 : ¬ (regionPtr view node sizeofDefer).isSome := by rw [h]; exact Bool.false_ne_true
  have h1 := (regionPtr_isSome (by omega)).not.mp h0
  dsimp only
  omega

/-- One round of the loop: the block the node names and the node itself. -/
theorem freeDefered_step {view : Region} {d : Defer} {rest : List Block}
    (h : AllocatorInv.Inv lo s (d.blocks ++ rest) A F) (hd : DeferAt s.mem d)
    (hp : (regionPtr view d.node sizeofDefer).isSome) (hne : d.node ≠ 0) (fuel : ℕ) :
    ∃ s' kept F', freeDefered (seen s view) (fuel + 1) d.node =
        freeDefered (seen s' view) fuel (deferNext s.mem d.node) ∧
      Released lo view s d.blocks rest F s' kept A F' := by
  obtain ⟨p, hp⟩ := Option.isSome_iff_exists.mp hp
  obtain ⟨rfl, -⟩ := regionPtr_eq_some hp
  have h0 : AllocatorInv.Inv lo s ((d.off, d.len) :: ([(d.node, sizeofDefer)] ++ rest)) A F := h
  obtain ⟨s1, k1, F1, hrun1, hrel1⟩ := allocFree_seen h0 view
  have h1 : AllocatorInv.Inv lo s1 ((d.node, sizeofDefer) :: (k1 ++ rest)) A F1 := hrel1.next
  obtain ⟨s2, k2, F2, hrun2, hrel2⟩ := allocFree_seen h1 view
  have hnext : deferNext s1.mem d.node = deferNext s.mem d.node :=
    load_defer hrel1.frame List.mem_cons_self (i := 16) (by decide)
  have hrel : Released lo view s ([(d.off, d.len)] ++ [(d.node, sizeofDefer)]) rest F s2 (k2 ++ k1)
      A F2 := hrel1.trans hrel2
  refine ⟨s2, k2 ++ k1, F2, ?_, hrel⟩
  conv_lhs => unfold freeDefered
  rw [if_neg hne, hp]
  dsimp only
  rw [hd.1, hd.2, hrun1, ok_bind, hrun2, ok_bind, hnext]

/-- **The loop of `optics_free_defered`**, in a process with another mapping. -/
theorem freeDefered_spec (view : Region) (ds : List Defer) : ∀ {s : Arena} {rest : List Block}
    {F : Fin allocClasses → List ℕ} {node : ℕ} (fuel : ℕ),
    AllocatorInv.Inv lo s (ds.flatMap Defer.blocks ++ rest) A F →
    Chain (deferNext s.mem) node (ds.map Defer.node) → (∀ d ∈ ds, DeferAt s.mem d) →
    ds.length < fuel →
    ∃ s' kept F', freeDefered (seen s view) fuel node = .ok (seen s' view) ∧
      Released lo view s (ds.flatMap Defer.blocks) rest F s' kept A F' := by
  induction ds with
  | nil =>
    intro s rest F node fuel h hc _ hfuel
    rw [show node = 0 from chain_nil.mp hc]
    obtain ⟨fuel, rfl⟩ := Nat.exists_eq_succ_of_ne_zero (Nat.ne_of_gt hfuel)
    exact ⟨s, [], F, rfl, released_refl h⟩
  | cons d ds ih =>
    intro s rest F node fuel h hc hf hfuel
    obtain ⟨fuel, rfl⟩ := Nat.exists_eq_succ_of_ne_zero (Nat.ne_of_gt (Nat.zero_lt_of_lt hfuel))
    obtain ⟨rfl, hne, hc⟩ := chain_cons.mp hc
    rw [List.flatMap_cons, List.append_assoc] at h
    rw [List.flatMap_cons]
    by_cases hp : (regionPtr view d.node sizeofDefer).isSome
    · obtain ⟨s1, k1, F1, hrun1, hrel1⟩ := freeDefered_step h (hf d List.mem_cons_self) hp hne fuel
      -- the nodes behind it are as they were
      have hnode : ∀ d' ∈ ds, (d'.node, sizeofDefer) ∈ ds.flatMap Defer.blocks ++ rest :=
        fun d' hd' => List.mem_append_left _ (List.mem_flatMap.mpr ⟨d', hd', d'.node_mem⟩)
      obtain ⟨s2, k2, F2, hrun2, hrel2⟩ := ih fuel hrel1.next
        (hc.congr fun n hn => by
          obtain ⟨d', hd', rfl⟩ := List.mem_map.mp hn
          exact load_defer hrel1.frame (hnode d' hd') (i := 16) (by decide))
        (fun d' hd' => (hf d' (List.mem_cons_of_mem _ hd')).agree hrel1.frame (hnode d' hd'))
        (Nat.lt_of_succ_lt_succ hfuel)
      exact ⟨s2, k2 ++ k1, F2, hrun1.trans hrun2, hrel1.trans hrel2⟩
    · -- the rest of the list is dropped
      have hin := h.live_inside (b := (d.node, sizeofDefer))
        (List.mem_append_left _ d.node_mem)
      have hpos := h.owner.pos_lt
      have hr : roundLen sizeofDefer = 32 := rfl
      dsimp only at hin
      have hp' := Option.not_isSome_iff_eq_none.mp hp
      refine ⟨s, d.blocks ++ ds.flatMap Defer.blocks, F, ?_, by rwa [List.append_assoc], rfl,
        Agree.refl _ _, fun c => List.Subset.refl _, List.Subset.refl _, fun b hb => Or.inl hb,
        fun hk => (nomatch hk), fun hm => ?_⟩
      · conv_lhs => unfold freeDefered
        rw [if_neg hne, hp']
      · exact absurd (hm (d.node, sizeofDefer) (List.mem_append_left _ d.node_mem))
          (not_mapped_of_node (by omega) hp')

section Drain
variable {o : StructOptics} {ls : List Lens} {D : Fin 2 → List Defer} {lost : List Block} {e : Fin 2}

theorem deferBlocks_drain (D : Fin 2 → List Defer) (e : Fin 2) : (deferBlocks D).Perm
    ((D e).flatMap Defer.blocks ++ deferBlocks (Function.update D e [])) := by
  unfold deferBlocks
  rcases Fin.exists_fin_two.mp ⟨e, rfl⟩ with he | he
  · subst he
    simp
  · subst he
    simpa using List.perm_append_comm

theorem held_drain (e : Fin 2) : (held ls D ++ lost).Perm
    ((D e).flatMap Defer.blocks ++ (held ls (Function.update D e []) ++ lost)) := by
  unfold held
  refine List.Perm.trans (((deferBlocks_drain D e).append_left _).append_right _) ?_
  simp only [← List.append_assoc]
  exact List.perm_append_comm.append_right _ |>.append_right _

/-- The head of a list is taken off: its nodes are in use no longer. -/
theorem Inv.detach (h : Inv o ls D lost A F) (e : Fin 2) :
    Inv { o with epochDefers := Function.update o.epochDefers e 0 } ls (Function.update D e [])
      ((D e).flatMap Defer.blocks ++ lost) A F := by
  refine ⟨h.arena.perm ((held_drain e).trans (List.perm_append_comm_assoc ..)), h.linked,
    ⟨fun e' => ?_, fun e' d hd => ?_⟩, h.short, h.keys⟩
  · by_cases he : e' = e
    · subst he
      simp only [Function.update_self]
      exact chain_nil.mpr rfl
    · simp only [Function.update_of_ne he]
      exact h.deferred.chain e'
  · by_cases he : e' = e
    · subst he
      rw [Function.update_self] at hd
      exact absurd hd List.not_mem_nil
    · rw [Function.update_of_ne he] at hd
      exact h.deferred.fields e' d hd

/-- A list of deferred frees has fewer nodes than the file has bytes. -/
theorem Inv.defers_length (h : Inv o ls D lost A F) (e : Fin 2) :
    (D e).length < o.arena.file.len + 1 := by
  have hsub : (D e).map Defer.node ⊆ List.range o.arena.file.len := by
    intro n hn
    obtain ⟨d, hd, rfl⟩ := List.mem_map.mp hn
    have h1 := h.arena.live_inside (List.mem_append_left _ (defer_mem_held hd d.node_mem))
    have h2 := h.arena.owner.pos_le
    have h3 := h.arena.owner.vma_le
    have hr : roundLen sizeofDefer = 32 := rfl
    dsimp only at h1
    exact List.mem_range.mpr (by omega)
  have hle := ((h.deferred.chain e).nodup.subperm hsub).length_le
  rw [List.length_map, List.length_range] at hle
  omega

/-- The state when the release of the list of epoch `e` through the mapping `view` is over; what
could not be reached is lost. -/
structure Drained (o : StructOptics) (ls : List Lens) (D : Fin 2 → List Defer) (lost : List Block)
    (A F : Fin allocClasses → List ℕ) (view : Region) (e : Fin 2) (o' : StructOptics)
    (kept : List Block) (F' : Fin allocClasses → List ℕ) : Prop where
  inv : Inv o' ls (Function.update D e []) (kept ++ lost) A F'
  released : Released blockBase view o.arena ((D e).flatMap Defer.blocks)
    (held ls (Function.update D e []) ++ lost) F o'.arena kept A F'
  keys : o'.keys = o.keys

/-- **`optics_free_defered`** in a process with any mapping. -/
theorem opticsFreeDefered_spec (h : Inv o ls D lost A F) (view : Region) (e : Fin 2) :
    ∃ o' kept F', opticsFreeDefered (o.seenBy view) e = .ok (o'.seenBy view) ∧
      o'.epoch = o.epoch ∧ o'.epochLastInc = o.epochLastInc ∧
        Drained o ls D lost A F view e o' kept F' := by
  have harena := h.arena.perm (held_drain e)
  obtain ⟨s', kept, F', hrun, hrel⟩ := freeDefered_spec view (D e) _ harena (h.deferred.chain e)
    (h.deferred.fields e) (Inv.defers_length h e)
  have hdet := Inv.detach h e
  refine ⟨StructOptics.setArena { o with epochDefers := Function.update o.epochDefers e 0 } s', kept,
    F', ?_, rfl, rfl, hdet.setArena ?_ ?_, hrel, rfl⟩
  · unfold opticsFreeDefered
    dsimp only
    rw [show (o.seenBy view).epochDefers e = o.epochDefers e from rfl,
      show (o.seenBy view).arena = seen o.arena view from rfl, hrun]
    rfl
  · exact hrel.inv.perm (List.perm_append_comm_assoc ..)
  · exact hrel.frame.subset (List.subset_append_left ..)

/-- **`optics_epoch_inc`** in a process with any mapping. It releases what was put off in the epoch
before the current one. -/
theorem opticsEpochInc_spec (h : Inv o ls D lost A F) (view : Region) :
    ∃ o' kept F', opticsEpochInc (o.seenBy view) = .ok (opticsEpoch o, o'.seenBy view) ∧
      o'.epoch = w64 (o.epoch + 1) ∧ o'.epochLastInc = o.epochLastInc ∧
      Drained o ls D lost A F view (opticsEpoch o + 1) o' kept F' := by
  obtain ⟨o', kept, F', hrun, hepoch, hlast, hd⟩ := opticsFreeDefered_spec h view (opticsEpoch o + 1)
  have heq : opticsEpoch o' = opticsEpoch o := by
    unfold opticsEpoch
    simp only [hepoch]
  refine ⟨{ o' with epoch := w64 (o'.epoch + 1) }, kept, F', ?_, ?_, hlast,
    ⟨⟨hd.inv.arena, hd.inv.linked, hd.inv.deferred, hd.inv.short, hd.inv.keys⟩, hd.released,
      hd.keys⟩⟩
  · unfold opticsEpochInc
    rw [show opticsEpoch (o.seenBy view) = opticsEpoch o from rfl, hrun, ok_bind,
      show opticsEpoch (o'.seenBy view) = opticsEpoch o' from rfl, heq]
    rfl
  · dsimp only
    rw [hepoch]

/-- **`optics_epoch_inc_at`** returns the time of the call before. -/
theorem opticsEpochIncAt_spec (h : Inv o ls D lost A F) (view : Region) (now : ℕ) :
    ∃ o' kept F', opticsEpochIncAt (o.seenBy view) now =
        .ok (opticsEpoch o, o.epochLastInc, o'.seenBy view) ∧
      o'.arena.region = o.arena.region ∧ o'.epoch = w64 (o.epoch + 1) ∧ o'.epochLastInc = now ∧
      Drained o ls D lost A F view (opticsEpoch o + 1) o' kept F' := by
  have h0 : Inv { o with epochLastInc := now } ls D lost A F :=
    ⟨h.arena, h.linked, h.deferred, h.short, h.keys⟩
  obtain ⟨o', kept, F', hrun, hepoch, hlast, hd⟩ := opticsEpochInc_spec h0 view
  refine ⟨o', kept, F', ?_, hd.released.region, hepoch, hlast, ⟨hd.inv, hd.released, hd.keys⟩⟩
  unfold opticsEpochIncAt
  dsimp only
  rw [show ({ o.seenBy view with epochLastInc := now } : StructOptics) =
    StructOptics.seenBy { o with epochLastInc := now } view from rfl, hrun]
  rfl

end Drain

end Release

end Optics.RegistryOps
