import Optics.RegistryRuns

/-! # The registry as a table

What a caller sees of the registry are the handles of its lenses with their names, types and data:
a list of entries, most recently registered first (`entries`). The entries are read off the bytes of
the region, where the allocator, the list of lenses and the deferred frees write next to them.

`registry_refines`: in every state that is reached, each call acts on the entries as its purpose
says, and no call changes a byte of the data of a lens but a store into that data. -/

namespace Optics.RegistryData

open Optics.Base Optics.Lib.Bytes Optics.Lib.Tiling Optics.Lib.Runs
open Optics.Regions Optics.Allocator Optics.AllocatorInv
open Optics.Lenses Optics.LensBlocks Optics.LensList Optics.Registry Optics.RegistryInv
open Optics.RegistryOps Optics.RegistryRuns Optics.Utils.Htables Optics.Utils.HtableMap

/-! ### Entries -/

/-- A word of the data of a lens. -/
def dataWord (m : Mem) (lens i : ℕ) : ℕ := load64 m (lens + sizeofLens + 8 * i)

/-- What a lens keeps: its type, and its data in words. -/
structure Cell where
  type : ℕ
  words : List ℕ

/-- What memory has for the lens. -/
def cellAt (m : Mem) (lens : ℕ) : Cell :=
  ⟨lensType m lens, (List.range (lensLen m lens / 8)).map (dataWord m lens)⟩

/-- A lens as its callers know it. -/
structure Entry where
  handle : ℕ
  name : CStr
  cell : Cell

def entryAt (m : Mem) (lens : ℕ) : Entry := ⟨lens, lensName m lens, cellAt m lens⟩

/-- The lenses that are registered. -/
def entries (s : State) : List Entry := s.regs.map (entryAt s.optics.arena.mem)

@[simp] theorem entryAt_handle (m : Mem) (lens : ℕ) : (entryAt m lens).handle = lens := rfl
@[simp] theorem entryAt_cell (m : Mem) (lens : ℕ) : (entryAt m lens).cell = cellAt m lens := rfl

/-- The type a lens is made with. -/
def argsType : LensArgs → LensType
  | .counter => .counter
  | .gauge => .gauge
  | .dist => .dist
  | .histo _ => .histo
  | .quantile .. => .quantile

/-- A word of the data a lens is made with: the bounds of a histogram behind its 20 numbers, and
then how many there are; the parameters of a quantile; zero otherwise. -/
def initWord (args : LensArgs) (i : ℕ) : ℕ :=
  match args with
  | .histo buckets =>
    if i = 29 then buckets.length else if 20 ≤ i then w64 (buckets.getD (i - 20) 0) else 0
  | .quantile t e a => [t.toNat, e.toNat, a.toNat].getD i 0
  | _ => 0

/-- What a lens is made with. -/
def initCell (args : LensArgs) : Cell :=
  ⟨(argsType args).code, (List.range (args.dataLen / 8)).map (initWord args)⟩

/-! ### Bytes that stay -/

/-- The lens has its type, its data and its name as before. -/
def Kept (m m' : Mem) (l : Lens) : Prop :=
  ∀ x, l.off + 40 ≤ x → x < l.off + l.total → m' x = m x

section Kept
variable {m m' m'' : Mem} {l : Lens} {ls : List Lens}

theorem Kept.refl (m : Mem) (l : Lens) : Kept m m l := fun _ _ _ => rfl

theorem Kept.trans (h : Kept m m' l) (h' : Kept m' m'' l) : Kept m m'' l :=
  fun x h1 h2 => (h' x h1 h2).trans (h x h1 h2)

theorem Kept.of_agree {bs : List Block} (hm : Agree m m' bs) (hl : l.block ∈ bs)
    (hlen : l.total ≤ allocMaxLen) : Kept m m' l := by
  have hr := le_roundLen hlen
  refine fun x h1 h2 => hm l.block hl x ⟨?_, ?_⟩ <;> simp <;> omega

theorem Kept.entry (h : Kept m m' l) (hat : LensAt m l) (hat' : LensAt m' l)
    (hname : l.name.val.length ≤ opticsNameMaxLen) : entryAt m' l.off = entryAt m l.off := by
  have ht : l.total = sizeofLens + (l.name.val.length + 1) + l.dataLen := rfl
  have hs : sizeofLens = 64 := rfl
  have htype : lensType m' l.off = lensType m l.off :=
    load_congr fun x h1 h2 => h x (by omega) (by omega)
  have hwords : ∀ i < l.dataLen / 8, dataWord m' l.off i = dataWord m l.off i := fun i hi =>
    load_congr fun x h1 h2 => h x (by omega) (by omega)
  unfold entryAt cellAt
  rw [hat'.name_eq hname, hat.name_eq hname, hat'.len, hat.len, htype]
  simp only [Entry.mk.injEq, Cell.mk.injEq, true_and]
  exact List.map_congr_left fun i hi => hwords i (List.mem_range.mp hi)

theorem kept_of_linksOnly {lo : ℕ} {s : Arena} {live : List Block} {A F : Fin allocClasses → List ℕ}
    (h : LinksOnly m m' ls) (hp : Placed live ls) (hi : AllocatorInv.Inv lo s live A F)
    (hl : l ∈ ls) : Kept m m' l := by
  refine fun x h1 h2 => h x fun l' hl' hx => ?_
  have hs : sizeofLens = 64 := rfl
  rcases eq_or_ne l.off l'.off with he | hne
  · omega
  · have h4 := hp.apart hi hl hl' hne
    have h5 := le_total l
    have h6 := le_total l'
    omega

end Kept

/-! ### What the operations keep -/

section Operations
variable {o o' : StructOptics} {ls : List Lens} {D : Fin 2 → List Defer} {lost : List Block}
  {A F : Fin allocClasses → List ℕ} {l l' : Lens}

theorem entry_eq {ls' : List Lens} {D' : Fin 2 → List Defer} {lost' : List Block}
    {A' F' : Fin allocClasses → List ℕ} (h : Inv o ls D lost A F) (h' : Inv o' ls' D' lost' A' F')
    (hl : l ∈ ls) (hl' : l ∈ ls') (hk : Kept o.arena.mem o'.arena.mem l) :
    entryAt o'.arena.mem l.off = entryAt o.arena.mem l.off :=
  hk.entry (h.linked.lensAt l hl) (h'.linked.lensAt l hl') (h.short l hl)

theorem kept_of_agree (h : Inv o ls D lost A F) {m : Mem}
    (hm : Agree o.arena.mem m (held ls D)) (hl : l ∈ ls) : Kept o.arena.mem m l :=
  Kept.of_agree hm (lens_mem_held hl) (h.total_le hl)

theorem placed_cons (h : Ready o ls D lost A F l) :
    Placed (held ls D ++ l.block :: lost) (l :: ls) := by
  refine ⟨fun r hr => ?_, ?_⟩
  · rcases List.mem_cons.mp hr with rfl | hr
    · simp
    · exact h.inv.placed.live r hr
  · rw [List.map_cons]
    refine List.nodup_cons.mpr ⟨fun hm => ?_, h.inv.placed.nodup⟩
    obtain ⟨r, hr, he⟩ := List.mem_map.mp hm
    exact h.inv.defer_ne hr (b := l.block) (by simp) he.symm

theorem kept_of_push (h : Ready o ls D lost A F l) {keys : Htable}
    (hrun : opticsPushLens { o with keys := keys } l.off = .ok o') (hl : l' ∈ l :: ls) :
    Kept o.arena.mem o'.arena.mem l' := by
  obtain ⟨m, hset, hlinks, -⟩ :=
    lensSetNext_spec h.inv.arena (placed_cons h) h.inv.linked h.lensAt h.prev
  unfold opticsPushLens at hrun
  rw [show lensSetNext ({ o with keys := keys } : StructOptics).arena l.off
    ({ o with keys := keys } : StructOptics).lensHead = .ok (o.arena.setMem m) from hset] at hrun
  cases hrun
  exact kept_of_linksOnly hlinks (placed_cons h) h.inv.arena hl

theorem kept_of_drop (h : Ready o ls D lost A F l) {s : Arena}
    (hrun : lensFree o.arena l.off = .ok s) (hl : l' ∈ ls) : Kept o.arena.mem s.mem l' := by
  have hlen := h.inv.arena.live_len l.block (by simp)
  have harena := h.inv.arena.perm (held_cons_perm (held ls D) l.block lost).symm
  have hmem : (l.off, l.total) ∈ l.block :: (held ls D ++ lost) := List.mem_cons_self
  obtain ⟨s', hfree, -, -, hoff⟩ := allocFree_spec harena hmem
  unfold lensFree at hrun
  rw [h.lensAt.off, h.lensAt.total_eq hlen, hfree] at hrun
  cases hrun
  exact kept_of_agree h.inv ((agree_of_sameOff harena hoff).subset (List.subset_append_left ..)) hl

/-- What an allocation came to once its lens is made: it was pushed, or its name is taken and it was
dropped or kept for nothing. -/
def Entered (o : StructOptics) (lens : ℕ) (r : Option ℕ) (o' : StructOptics) : Prop :=
  ∃ keys ret, htablePut htableHash o.keys (lensName o.arena.mem lens) (lensOff o.arena.mem lens) =
      .ok (keys, ret) ∧
    ((ret.ok = true ∧ r = some lens ∧ opticsPushLens { o with keys := keys } lens = .ok o') ∨
      (ret.ok = false ∧ (lensFree o.arena lens = .ok o'.arena ∨ o'.arena = o.arena)))

theorem opticsAlloc_entered {s : Arena} {lens : ℕ} {r : Option ℕ}
    (hrun : opticsAlloc o (.ok (some lens, s)) = .ok (r, o')) :
    Entered (o.setArena s) lens r o' := by
  unfold opticsAlloc opticsLensAlloc at hrun
  simp only [ok_bind, bind_eq_ok, Prod.exists] at hrun
  obtain ⟨ol, o1, ⟨keys, ret, hput, h1⟩, h2⟩ := hrun
  refine ⟨keys, ret, hput, ?_⟩
  by_cases hok : ret.ok = true
  · rw [if_pos hok] at h1
    obtain ⟨o2, hpush, h1⟩ := bind_eq_ok.mp h1
    cases h1
    cases h2
    exact Or.inl ⟨hok, rfl, hpush⟩
  · rw [if_neg hok] at h1
    cases h1
    obtain ⟨s', hfree, h2⟩ := bind_eq_ok.mp h2
    cases h2
    exact Or.inr ⟨Bool.eq_false_iff.mpr hok, Or.inl hfree⟩

theorem opticsAllocGet_entered {s : Arena} {lens : ℕ} {r : Option ℕ}
    (hrun : opticsAllocGet o (.ok (some lens, s)) = .ok (r, o')) :
    Entered (o.setArena s) lens r o' := by
  unfold opticsAllocGet opticsLensAllocGet at hrun
  simp only [ok_bind, bind_eq_ok, Prod.exists] at hrun
  obtain ⟨ol, o1, ⟨keys, ret, hput, h1⟩, h2⟩ := hrun
  refine ⟨keys, ret, hput, ?_⟩
  by_cases hok : ret.ok = true
  · rw [if_pos hok] at h1
    obtain ⟨o2, hpush, h1⟩ := bind_eq_ok.mp h1
    cases h1
    rw [if_neg (fun hc => hc rfl)] at h2
    cases h2
    exact Or.inl ⟨hok, rfl, hpush⟩
  · rw [if_neg hok] at h1
    cases h1
    refine Or.inr ⟨Bool.eq_false_iff.mpr hok, ?_⟩
    split_ifs at h2
    · obtain ⟨s', hfree, h2⟩ := bind_eq_ok.mp h2
      cases h2
      exact Or.inl hfree
    · cases h2
      exact Or.inr rfl

theorem kept_of_entered (h : Ready o ls D lost A F l) {r : Option ℕ}
    (he : Entered o l.off r o') (hl : l' ∈ ls) : Kept o.arena.mem o'.arena.mem l' := by
  obtain ⟨keys, ret, -, ⟨-, -, hpush⟩ | ⟨-, hfree | hsame⟩⟩ := he
  · exact kept_of_push h hpush (List.mem_cons_of_mem _ hl)
  · exact kept_of_drop h hfree hl
  · rw [hsame]
    exact Kept.refl _ _

theorem Entered.fresh {r : Option ℕ} (he : Entered o l.off r o') (h : Ready o ls D lost A F l)
    (hl : ¬ Taken ls l.name) : r = some l.off ∧ Kept o.arena.mem o'.arena.mem l := by
  obtain ⟨keys, ret, hput, ⟨-, hr, hpush⟩ | ⟨hfalse, -⟩⟩ := he
  · exact ⟨hr, kept_of_push h hpush List.mem_cons_self⟩
  · rw [h.name_eq, h.lensAt.off] at hput
    rcases keys_put_new h.inv.keys hl h.short with ⟨hdiv, -⟩ | ⟨keys', hok, -⟩
    · cases hput.symm.trans hdiv
    · cases hput.symm.trans hok
      cases hfalse

theorem agree_of_defer {b : Block} (h : Inv o ls D (b :: lost) A F) {env : GrowEnv} {r : Bool}
    (hrun : opticsDeferFree env o b.1 b.2 = .ok (r, o')) :
    Agree o.arena.mem o'.arena.mem (held ls D ++ b :: lost) := by
  obtain ⟨node, s, halloc, hres⟩ := allocAlloc_spec h.arena env
    (show sizeofDefer ≤ allocMaxLen by decide)
  unfold opticsDeferFree at hrun
  rw [halloc, ok_bind] at hrun
  dsimp only at hrun
  rcases hres with ⟨-, rfl, hn⟩ | ⟨-, hnode, A', F', ha⟩
  · rw [if_pos rfl] at hrun
    cases hrun
    exact fun _ _ x _ => congrFun hn.mem x
  · have hle : sizeofDefer ≤ roundLen sizeofDefer := by decide
    rw [if_neg hnode, ha.inv.ptr List.mem_cons_self hle] at hrun
    cases hrun
    have hb := ha.inv.live_inside (b := b) (by simp)
    have hlen := ha.inv.live_len b (by simp)
    have hpos := ha.inv.owner.pos_lt
    obtain ⟨hoff, -⟩ := deferNode_fields s.mem node b.1 b.2 (by omega)
      (lt_of_le_of_lt hlen (by decide)) (h.defers_lt (opticsEpoch o))
    exact Agree.trans ha.frame (agree_of_sameOff ha.inv
      (hoff.mono le_rfl (Nat.add_le_add_left hle node)))

/-- **Freeing a lens keeps the others.** -/
theorem kept_of_free {l1 l2 : List Lens} (h : Inv o (l1 ++ l :: l2) D lost A F) {env : GrowEnv}
    {r : Bool} (hrun : opticsLensFree env o l.off = .ok (r, o')) (hl : l' ∈ l1 ++ l2) :
    Kept o.arena.mem o'.arena.mem l' := by
  have hmem : l ∈ l1 ++ l :: l2 := by simp
  have hshort := h.short l hmem
  obtain ⟨keys, hdel, hkeys⟩ := keys_del h.keys h.placed.nodup hshort
  obtain ⟨o1, hrem, hi1, hat, -⟩ := h.remove hkeys
  have h1 : Kept o.arena.mem o1.arena.mem l' := by
    obtain ⟨m, hkill, hlinks, -⟩ := lensKill_spec h.arena rfl h.placed h.linked
    unfold opticsRemoveLens at hrem
    rw [show lensKill ({ o with keys := keys } : StructOptics).arena l.off = .ok (o.arena.setMem m)
      from hkill, ok_bind] at hrem
    have ho1 : o1.arena.mem = m := by
      rw [← Except.ok.inj hrem]
      split_ifs <;> rfl
    rw [ho1]
    exact kept_of_linksOnly hlinks h.placed h.arena (mem_of_mem_remove hl)
  unfold opticsLensFree at hrun
  rw [(h.linked.lensAt l hmem).name_eq hshort, hdel, ok_bind] at hrun
  simp only [Bool.not_true, Bool.false_eq_true, if_false] at hrun
  rw [hrem, ok_bind, hat.off, hat.total_eq (h.total_le hmem)] at hrun
  exact h1.trans (kept_of_agree hi1
    ((agree_of_defer hi1 (b := l.block) hrun).subset (List.subset_append_left ..)) hl)

end Operations

/-! ### The data of a new lens -/

section Fresh
variable {lo : ℕ} {s s' : Arena} {live : List Block} {A F : Fin allocClasses → List ℕ}

theorem lensAlloc_data (h : AllocatorInv.Inv lo s live A F) {env : GrowEnv} {type : LensType}
    {len off : ℕ} (hlen : len ≤ sizeofLensDist) {name : CStr}
    (hrun : lensAlloc env s type len name = .ok (some off, s')) :
    lensType s'.mem off = type.code ∧
      ∀ x, off + sizeofLens ≤ x → x < off + sizeofLens + len → s'.mem x = 0 := by
  have hle : name.strnlen opticsNameMaxLen ≤ 256 := Nat.min_le_right ..
  have hd : sizeofLensDist = 3248 := rfl
  have hs : sizeofLens = 64 := rfl
  have hmax : sizeofLens + (name.strnlen opticsNameMaxLen + 1) + len ≤ allocMaxLen := by
    unfold allocMaxLen
    omega
  have hr := le_roundLen hmax
  obtain ⟨b, s1, halloc, hres⟩ := allocAlloc_spec h env hmax
  unfold lensAlloc at hrun
  dsimp only at hrun
  split_ifs at hrun
  · cases hrun
  rw [halloc, ok_bind] at hrun
  rcases hres with ⟨-, rfl, -⟩ | ⟨-, hb, A', F', ha⟩
  · rw [if_pos rfl] at hrun
    cases hrun
  dsimp only at hrun
  rw [if_neg hb, ha.inv.ptr List.mem_cons_self hr] at hrun
  have hin := ha.inv.live_inside List.mem_cons_self
  have hpos := ha.inv.owner.pos_lt
  dsimp only at hin hrun
  have hoff : off < 2 ^ 64 ∧ s' = s1.setMem (lensMem s1.mem type (newLens off len name)) ∧ off = b := by
    rw [← lensAlloc_stores s1.mem type off len name]
    · cases hrun
      exact ⟨by omega, rfl, rfl⟩
    all_goals cases hrun; omega
  obtain ⟨-, rfl, rfl⟩ := hoff
  have hword : (newLens off len name).off + (newLens off len name).total < 2 ^ 64 := by
    rw [newLens_total]
    exact lt_of_le_of_lt (Nat.add_le_add_left hr _) (show off + _ < _ by omega)
  refine ⟨(lensMem_lensAt type hword fun x hx => ha.zero x ⟨hx.1, ?_⟩).2.2, fun x h1 h2 => ?_⟩
  · exact hx.2.trans_le (Nat.add_le_add_left (by rw [newLens_total]; exact hr) _)
  · -- the header lies in front of the data, the name behind it
    refine (sameOff_write _ _ _ x fun hx => ?_).trans ((headerMem_sameOff _ _ _ _ _ x fun hx => ?_).trans
      (ha.zero x ⟨?_, ?_⟩))
    · exact absurd hx.1 (show ¬ off + sizeofLens + len ≤ x by omega)
    · exact absurd hx.2 (show ¬ x < off + sizeofLens by omega)
    · show off ≤ x
      omega
    · show x < off + roundLen _
      omega

theorem load64_storeWords : ∀ (vs : List ℕ) (m : Mem) (a i : ℕ), i < vs.length →
    load64 (storeWords m a vs) (a + 8 * i) = w64 (vs.getD i 0)
  | v :: vs, m, a, 0, _ => by
    show load64 (storeWords (store64 m a v) (a + 8) vs) a = w64 v
    refine (load_of_sameOff (storeWords_sameOff vs _ _) (Or.inl (by omega))).trans ?_
    exact load_store m 8 a v
  | v :: vs, m, a, i + 1, hi => by
    have ih := load64_storeWords vs (store64 m a v) (a + 8) i (by simpa using hi)
    rw [show a + 8 * (i + 1) = a + 8 + 8 * i by omega]
    exact ih

theorem cellAt_eq {m : Mem} {lens : ℕ} {args : LensArgs} (hlen : lensLen m lens = args.dataLen)
    (htype : lensType m lens = (argsType args).code)
    (hwords : ∀ i < args.dataLen / 8, dataWord m lens i = initWord args i) :
    cellAt m lens = initCell args := by
  unfold cellAt initCell
  rw [hlen, htype]
  simp only [Cell.mk.injEq, true_and]
  exact List.map_congr_left fun i hi => hwords i (List.mem_range.mp hi)

/-- The stores of `lens_histo_alloc` into the data. -/
def histoMem (m : Mem) (lens : ℕ) (buckets : List ℕ) : Mem :=
  storeWords (store64 m (lens + sizeofLens + 2 * sizeofLensHistoEpoch +
    (opticsHistoBucketsMax + 1) * 8) buckets.length)
    (lens + sizeofLens + 2 * sizeofLensHistoEpoch) buckets

section Histo
variable {buckets : List ℕ} (hb : buckets.length ≤ 9) (m : Mem) (lens : ℕ)
include hb

theorem histoMem_sameOff : SameOff m (histoMem m lens buckets) (lens + sizeofLens + 160) 80 := by
  have hlen : SameOff m _ (lens + sizeofLens + 160) 80 :=
    (sameOff_store m 8 (lens + sizeofLens + 160 + 72) buckets.length).mono (by omega) (by omega)
  exact hlen.trans ((storeWords_sameOff buckets _ _).mono le_rfl
    (show lens + sizeofLens + 160 + 8 * buckets.length ≤ lens + sizeofLens + 160 + 80 by omega))

theorem histoMem_type : lensType (histoMem m lens buckets) lens = lensType m lens := by
  have hs : sizeofLens = 64 := rfl
  exact load_of_sameOff (histoMem_sameOff hb m lens) (Or.inl (by omega))

theorem histoMem_word (hz : ∀ x, lens + sizeofLens ≤ x → x < lens + sizeofLens + sizeofLensHisto →
    m x = 0) {i : ℕ} (hi : i < 30) :
    dataWord (histoMem m lens buckets) lens i = initWord (.histo buckets) i := by
  have hl : sizeofLensHisto = 240 := rfl
  have hzero : load64 m (lens + sizeofLens + 8 * i) = 0 :=
    load_zero fun x h1 h2 => hz x (by omega) (by omega)
  have hstore := sameOff_store m 8 (lens + sizeofLens + 160 + 72) buckets.length
  have hwords := storeWords_sameOff buckets
    (store64 m (lens + sizeofLens + 160 + 72) buckets.length) (lens + sizeofLens + 160)
  unfold initWord dataWord
  dsimp only
  by_cases h29 : i = 29
  · subst h29
    rw [if_pos rfl]
    refine (load_of_sameOff hwords (Or.inr (by omega))).trans ?_
    exact load64_store64 (by omega)
  rw [if_neg h29]
  by_cases h20 : 20 ≤ i
  · rw [if_pos h20]
    by_cases hj : i - 20 < buckets.length
    · have hw := load64_storeWords buckets
        (store64 m (lens + sizeofLens + 160 + 72) buckets.length) (lens + sizeofLens + 160) _ hj
      rw [show lens + sizeofLens + 8 * i = lens + sizeofLens + 160 + 8 * (i - 20) by omega]
      exact hw
    · rw [List.getD_eq_default _ _ (by omega)]
      refine (load_of_sameOff hwords (Or.inr (by omega))).trans ?_
      exact (load_of_sameOff hstore (Or.inl (by omega))).trans hzero
  · rw [if_neg h20]
    refine (load_of_sameOff hwords (Or.inl (by omega))).trans ?_
    exact (load_of_sameOff hstore (Or.inl (by omega))).trans hzero

end Histo

section Quantile
variable (t e a : UInt64) (m : Mem) (lens : ℕ)

theorem quantileMem_type : lensType (storeWords m (lens + sizeofLens)
    [t.toNat, e.toNat, a.toNat]) lens = lensType m lens := by
  have hs : sizeofLens = 64 := rfl
  exact load_of_sameOff (storeWords_sameOff _ _ _) (Or.inl (by omega))

theorem quantileMem_word (hz : ∀ x, lens + sizeofLens ≤ x →
    x < lens + sizeofLens + sizeofLensQuantile → m x = 0) {i : ℕ} (hi : i < 6) :
    dataWord (storeWords m (lens + sizeofLens) [t.toNat, e.toNat, a.toNat]) lens i =
      initWord (.quantile t e a) i := by
  have hl : sizeofLensQuantile = 48 := rfl
  unfold initWord dataWord
  dsimp only
  by_cases h3 : i < 3
  · refine (load64_storeWords _ _ _ _ h3).trans (w64_eq ?_)
    have ht := t.toNat_lt
    have he := e.toNat_lt
    have ha := a.toNat_lt
    interval_cases i <;> simpa
  · rw [List.getD_eq_default _ _ (by simpa using h3)]
    refine (load_of_sameOff (storeWords_sameOff _ _ _) (Or.inr ?_)).trans
      (load_zero fun x h1 h2 => hz x (by omega) (by omega))
    simp only [List.length_cons, List.length_nil]
    omega

end Quantile

/-- **A new lens has the data of its type.** -/
theorem lensTypedAlloc_cell (h : AllocatorInv.Inv lo s live A F) {env : GrowEnv} {name : CStr}
    {args : LensArgs} {off : ℕ} (hrun : lensTypedAlloc env s name args = .ok (some off, s')) :
    cellAt s'.mem off = initCell args := by
  have hlen : lensLen s'.mem off = args.dataLen := by
    obtain ⟨r, s1, hrun', hres⟩ := lensTypedAlloc_spec h env name args
    cases hrun.symm.trans hrun'
    rcases hres with ⟨-, hr, -⟩ | ⟨-, off', A', F', hr, hm⟩
    · cases hr
    · cases hr
      exact hm.lensAt.len
  have hs : sizeofLens = 64 := rfl
  cases args with
  | counter =>
    obtain ⟨htype, hz⟩ := lensAlloc_data h (by decide) hrun
    refine cellAt_eq hlen htype fun i hi => load_zero fun x h1 h2 => hz x (by omega) ?_
    have hi : i < 2 := hi
    omega
  | gauge =>
    obtain ⟨htype, hz⟩ := lensAlloc_data h (by decide) hrun
    refine cellAt_eq hlen htype fun i hi => load_zero fun x h1 h2 => hz x (by omega) ?_
    have hi : i < 1 := hi
    omega
  | dist =>
    obtain ⟨htype, hz⟩ := lensAlloc_data h le_rfl hrun
    refine cellAt_eq hlen htype fun i hi => load_zero fun x h1 h2 => hz x (by omega) ?_
    have hi : i < 406 := hi
    have hd : sizeofLensDist = 3248 := rfl
    omega
  | histo buckets =>
    unfold lensTypedAlloc lensHistoAlloc at hrun
    dsimp only at hrun
    rcases hok : histoBucketsOk buckets with _ | _
    · rw [hok] at hrun
      cases hrun
    rw [hok, if_neg (by simp)] at hrun
    obtain ⟨⟨lens, s1⟩, hlens, hrun⟩ := bind_eq_ok.mp hrun
    cases lens with
    | none => cases hrun
    | some lens =>
      obtain ⟨htype, hz⟩ := lensAlloc_data h (by decide) hlens
      dsimp only at hrun
      rw [lensSubPtr_some htype] at hrun
      cases hrun
      have hb : buckets.length ≤ 9 := by
        unfold histoBucketsOk at hok
        simp only [Bool.and_eq_true, decide_eq_true_eq] at hok
        exact hok.1.2
      exact cellAt_eq hlen ((histoMem_type hb _ _).trans htype)
        fun i hi => histoMem_word hb _ _ hz (show i < 240 / 8 from hi)
  | quantile t e a =>
    unfold lensTypedAlloc lensQuantileAlloc at hrun
    dsimp only at hrun
    obtain ⟨⟨lens, s1⟩, hlens, hrun⟩ := bind_eq_ok.mp hrun
    cases lens with
    | none => cases hrun
    | some lens =>
      obtain ⟨htype, hz⟩ := lensAlloc_data h (by decide) hlens
      dsimp only at hrun
      rw [lensSubPtr_some htype] at hrun
      cases hrun
      exact cellAt_eq hlen ((quantileMem_type t e a _ _).trans htype)
        fun i hi => quantileMem_word t e a _ _ hz (show i < 48 / 8 from hi)

end Fresh

/-! ### The calls -/

/-- What an allocation does to the entries. `found` is what it returns for a name that is taken. -/
inductive Registers (refused : Prop) (name : CStr) (args : LensArgs) (found : Entry → Option ℕ)
    (es : List Entry) : Option ℕ → List Entry → Prop
  | refused (h : refused) : Registers refused name args found es none es
  | taken {e : Entry} (h : ¬ refused) (he : e ∈ es) (hn : e.name = name.take opticsNameMaxLen) :
      Registers refused name args found es (found e) es
  | fresh {off : ℕ} (h : ¬ refused) (hn : ∀ e ∈ es, e.name ≠ name.take opticsNameMaxLen)
      (hoff : ∀ e ∈ es, e.handle ≠ off) : Registers refused name args found es (some off)
        (⟨off, name.take opticsNameMaxLen, initCell args⟩ :: es)

/-- The data of a lens after stores into it. -/
def Entry.stored (m : Mem) (lens : ℕ) (e : Entry) : Entry :=
  if e.handle = lens then
    { e with cell := ⟨e.cell.type, (List.range e.cell.words.length).map (dataWord m lens)⟩ }
  else e

/-- Every call acts on the entries as it is meant to. -/
structure Refines (s : State) : Prop where
  handles : ((entries s).map Entry.handle).Nodup
  names : ((entries s).map Entry.name).Nodup
  alloc : ∀ env name args r o, opticsTypedAlloc env s.optics name args = .ok (r, o) →
    Registers (RefusedArgs env s.optics.arena name args) name args (fun _ => none) (entries s) r
      (entries ⟨o, r.toList ++ s.regs⟩)
  allocGet : ∀ env name args r o, opticsTypedAllocGet env s.optics name args = .ok (r, o) →
    Registers (RefusedArgs env s.optics.arena name args) name args (fun e => some e.handle)
      (entries s) r (entries ⟨o, entered s.regs r⟩)
  get : ∀ name r o, opticsLensGet s.optics name = .ok (r, o) →
    (∀ lens, r = some lens ↔ ∃ e ∈ entries s, e.name = clip name ∧ e.handle = lens) ∧
      entries ⟨o, s.regs⟩ = entries s
  free : ∀ env r o, ∀ lens ∈ s.regs, opticsLensFree env s.optics lens = .ok (r, o) →
    entries ⟨o, s.regs.erase lens⟩ = (entries s).filter (·.handle ≠ lens)
  record : ∀ m, ∀ lens ∈ s.regs, SameOff s.optics.arena.mem m (lens + sizeofLens)
      (lensLen s.optics.arena.mem lens) →
    entries ⟨s.optics.setArena (s.optics.arena.setMem m), s.regs⟩ =
      (entries s).map (Entry.stored m lens)
  epochInc : ∀ view now lastInc e o,
    opticsEpochIncAt (s.optics.seenBy view) now = .ok (e, lastInc, o) →
    entries ⟨o.seenBy s.optics.arena.region, s.regs⟩ = entries s

section Calls
variable {s : State} {ls : List Lens} {D : Fin 2 → List Defer} {lost : List Block}
  {A F : Fin allocClasses → List ℕ}

theorem entries_eq (hregs : ls.map Lens.off = s.regs) :
    entries s = ls.map fun l => entryAt s.optics.arena.mem l.off := by
  unfold entries
  rw [← hregs, List.map_map]
  rfl

theorem mem_entries (h : Inv s.optics ls D lost A F) (hregs : ls.map Lens.off = s.regs) {e : Entry} :
    e ∈ entries s ↔ ∃ l ∈ ls, e = ⟨l.off, l.name, cellAt s.optics.arena.mem l.off⟩ := by
  rw [entries_eq hregs, List.mem_map]
  refine exists_congr fun l => and_congr_right fun hl => ?_
  unfold entryAt
  rw [(h.linked.lensAt l hl).name_eq (h.short l hl), eq_comm]

theorem entries_kept {o : StructOptics} {ls' : List Lens} {D' : Fin 2 → List Defer}
    {lost' : List Block} {A' F' : Fin allocClasses → List ℕ} (h : Inv s.optics ls D lost A F)
    (h' : Inv o ls' D' lost' A' F') {ks : List Lens} (hks : ks ⊆ ls) (hks' : ks ⊆ ls')
    (hk : ∀ l ∈ ks, Kept s.optics.arena.mem o.arena.mem l) :
    (ks.map fun l => entryAt o.arena.mem l.off) =
      ks.map fun l => entryAt s.optics.arena.mem l.off :=
  List.map_congr_left fun l hl => entry_eq h h' (hks hl) (hks' hl) (hk l hl)

/-- **Allocating**, by a function that enters the lens it makes. -/
theorem registers_of_spec (h : Inv s.optics ls D lost A F) (hregs : ls.map Lens.off = s.regs)
    {env : GrowEnv} {name : CStr} {args : LensArgs} {r : Option ℕ} {o : StructOptics}
    {run : Outcome (Option ℕ × StructOptics)} {found : Lens → Option ℕ}
    (hspec : AllocSpec s.optics ls D lost A F env name args run found) (hrun : run = .ok (r, o))
    (hent : ∀ lens a, lensTypedAlloc env s.optics.arena name args = .ok (some lens, a) →
      Entered (s.optics.setArena a) lens r o) {regs : List ℕ} {found' : Entry → Option ℕ}
    (hfound : ∀ l ∈ ls, found' (entryAt s.optics.arena.mem l.off) = found l)
    (hnone : r = none → regs = s.regs) (hold : ∀ l ∈ ls, r = found l → regs = s.regs)
    (hnew : ∀ lens, r = some lens → lens ∉ s.regs → regs = lens :: s.regs) :
    Registers (RefusedArgs env s.optics.arena name args) name args found' (entries s) r
      (entries ⟨o, regs⟩) := by
  obtain ⟨r0, a, hmade, hres⟩ := lensTypedAlloc_spec h.arena env name args
  by_cases href : RefusedArgs env s.optics.arena name args
  · obtain ⟨a', hrun', hn⟩ := hspec.refused href
    cases hrun.symm.trans hrun'
    rw [hnone rfl, show entries ⟨s.optics.setArena a', s.regs⟩ = entries s by
      unfold entries; simp [hn.mem]]
    exact .refused href
  rcases hres with ⟨hc, -⟩ | ⟨-, off, A1, F1, rfl, hm⟩
  · exact absurd hc href
  have hready : Ready (s.optics.setArena a) ls D lost A1 F1 (newLens off args.dataLen name) :=
    ⟨h.made hm, hm.lensAt, hm.prev, List.length_take_le _ _⟩
  have hkept : ∀ l ∈ ls, Kept s.optics.arena.mem o.arena.mem l := fun l hl =>
    (kept_of_agree h (hm.frame.subset (List.subset_append_left ..)) hl).trans
      (kept_of_entered hready (hent off a hmade) hl)
  by_cases htaken : Taken ls (name.take opticsNameMaxLen)
  · obtain ⟨l, hl, hname⟩ := htaken
    obtain ⟨a', A', F', hrun', hi'⟩ := hspec.taken href l hl hname
    cases hrun.symm.trans hrun'
    have hsame : entries ⟨s.optics.setArena a', s.regs⟩ = entries s := by
      rw [entries_eq (s := ⟨s.optics.setArena a', s.regs⟩) hregs, entries_eq hregs]
      exact entries_kept h hi' (List.Subset.refl _) (List.Subset.refl _) hkept
    have hmem : entryAt s.optics.arena.mem l.off ∈ entries s := by
      rw [entries_eq hregs]
      exact List.mem_map.mpr ⟨l, hl, rfl⟩
    have hn : lensName s.optics.arena.mem l.off = name.take opticsNameMaxLen :=
      ((h.linked.lensAt l hl).name_eq (h.short l hl)).trans hname
    rw [hold l hl rfl, hsame, ← hfound l hl]
    exact .taken href hmem hn
  · obtain ⟨hr, hk⟩ :=
      Entered.fresh (l := newLens off args.dataLen name) (hent off a hmade) hready htaken
    rcases hspec.fresh href htaken with ⟨hdiv, -⟩ | ⟨off', o', A', F', hrun', hi', -⟩
    · cases hrun.symm.trans hdiv
    cases hrun.symm.trans hrun'
    cases hr
    have hnot : off ∉ s.regs := by
      rw [← hregs]
      exact (List.nodup_cons.mp hi'.placed.nodup).1
    have hnewEntry : entryAt o.arena.mem off =
        ⟨off, name.take opticsNameMaxLen, initCell args⟩ := by
      refine (hk.entry hready.lensAt (hi'.linked.lensAt _ List.mem_cons_self) hready.short).trans ?_
      have hcell : cellAt a.mem off = initCell args := lensTypedAlloc_cell h.arena hmade
      have hn : lensName a.mem off = name.take opticsNameMaxLen := hready.name_eq
      show (⟨off, lensName a.mem off, cellAt a.mem off⟩ : Entry) = _
      rw [hn, hcell]
    have hrest : entries ⟨o, s.regs⟩ = entries s := by
      rw [entries_eq (s := ⟨o, s.regs⟩) hregs, entries_eq hregs]
      exact entries_kept h hi' (List.Subset.refl _) (List.subset_cons_self ..) hkept
    rw [hnew off rfl hnot, show entries ⟨o, off :: s.regs⟩ =
      entryAt o.arena.mem off :: entries ⟨o, s.regs⟩ from rfl, hnewEntry, hrest]
    refine .fresh href (fun e hmem hn => ?_) fun e hmem hoff => ?_
    · obtain ⟨l, hl, rfl⟩ := (mem_entries h hregs).mp hmem
      exact htaken ⟨l, hl, hn⟩
    · obtain ⟨l, hl, rfl⟩ := (mem_entries h hregs).mp hmem
      refine hnot ?_
      rw [← show l.off = off from hoff, ← hregs]
      exact List.mem_map_of_mem hl

/-- **Freeing**: the entry of the lens goes, the others stay. -/
theorem entries_free (h : Inv s.optics ls D lost A F) (hregs : ls.map Lens.off = s.regs)
    {env : GrowEnv} {r : Bool} {o : StructOptics} {lens : ℕ} (hl : lens ∈ s.regs)
    (hrun : opticsLensFree env s.optics lens = .ok (r, o)) :
    entries ⟨o, s.regs.erase lens⟩ = (entries s).filter (·.handle ≠ lens) := by
  rw [← hregs] at hl
  obtain ⟨l, hmem, rfl⟩ := List.mem_map.mp hl
  obtain ⟨l1, l2, rfl⟩ := List.append_of_mem hmem
  have hnd := h.placed.nodup
  have hother : ∀ l' ∈ l1 ++ l2, l'.off ≠ l.off := by
    intro l' hl' he
    rw [List.map_append, List.map_cons] at hnd
    have hnot := (List.nodup_cons.mp (List.nodup_middle.mp hnd)).1
    rw [← List.map_append] at hnot
    exact hnot (he ▸ List.mem_map_of_mem hl')
  have hkept : ∀ l' ∈ l1 ++ l2, Kept s.optics.arena.mem o.arena.mem l' := fun l' hl' =>
    kept_of_free h hrun hl'
  have hsub : l1 ++ l2 ⊆ l1 ++ l :: l2 := fun l' hl' => mem_of_mem_remove hl'
  have hmap : ((l1 ++ l2).map fun l => entryAt o.arena.mem l.off) =
      (l1 ++ l2).map fun l => entryAt s.optics.arena.mem l.off := by
    obtain ⟨r', o', hrun', -, hres⟩ := opticsLensFree_spec h env
    cases hrun.symm.trans hrun'
    rcases hres with ⟨-, -, -, hi'⟩ | ⟨-, -, node, A', F', -, hi'⟩
    · exact entries_kept h hi' hsub (List.Subset.refl _) hkept
    · exact entries_kept h hi' hsub (List.Subset.refl _) hkept
  have herase : (l1 ++ l2).map Lens.off = s.regs.erase l.off := by
    rw [← hregs]
    exact (map_off_erase hnd).symm
  rw [entries_eq (s := ⟨o, s.regs.erase l.off⟩) herase, hmap, entries_eq hregs]
  have hfilter : ∀ ks : List Lens, (∀ l' ∈ ks, l'.off ≠ l.off) →
      (ks.map fun l => entryAt s.optics.arena.mem l.off).filter (·.handle ≠ l.off) =
        ks.map fun l => entryAt s.optics.arena.mem l.off := by
    intro ks hks
    refine List.filter_eq_self.mpr fun e he => ?_
    obtain ⟨l', hl', rfl⟩ := List.mem_map.mp he
    simp [hks l' hl']
  have h1 := hfilter l1 fun l' hl' => hother l' (List.mem_append_left _ hl')
  have h2 := hfilter l2 fun l' hl' => hother l' (List.mem_append_right _ hl')
  simp only [List.map_append, List.map_cons, List.filter_append]
  rw [List.filter_cons_of_neg (by simp), h1, h2]

/-- **Recording**: the data stored into is that of the lens, and of no other. -/
theorem entries_record (h : Inv s.optics ls D lost A F) (hregs : ls.map Lens.off = s.regs) {m : Mem}
    {lens : ℕ} (hl : lens ∈ s.regs) (hm : SameOff s.optics.arena.mem m (lens + sizeofLens)
      (lensLen s.optics.arena.mem lens)) :
    entries ⟨s.optics.setArena (s.optics.arena.setMem m), s.regs⟩ =
      (entries s).map (Entry.stored m lens) := by
  rw [← hregs] at hl
  obtain ⟨l, hmem, rfl⟩ := List.mem_map.mp hl
  have hlen := (h.linked.lensAt l hmem).len
  rw [hlen] at hm
  have hi' := h.record hmem hm
  have hs : sizeofLens = 64 := rfl
  unfold entries
  rw [List.map_map, ← hregs, List.map_map, List.map_map]
  refine List.map_congr_left fun l' hl' => ?_
  have hat := h.linked.lensAt l' hl'
  show entryAt m l'.off = (entryAt s.optics.arena.mem l'.off).stored m l.off
  unfold Entry.stored
  by_cases he : l'.off = l.off
  · cases eq_of_off h.placed.nodup hl' hmem he
    have htype : lensType m l.off = lensType s.optics.arena.mem l.off :=
      load_of_sameOff hm (Or.inl (by omega))
    have hname : lensName m l.off = lensName s.optics.arena.mem l.off :=
      ((hi'.linked.lensAt l hmem).name_eq (hi'.short l hmem)).trans
        (hat.name_eq (h.short l hmem)).symm
    have hlen' : lensLen m l.off = l.dataLen := (hi'.linked.lensAt l hmem).len
    unfold entryAt cellAt
    rw [hname, htype, hlen', hlen]
    simp
  · rw [if_neg (by exact he)]
    refine entry_eq h hi' hl' hl' fun x h1 h2 => hm x fun hx => ?_
    have h4 := h.placed.apart h.arena hl' hmem he
    have ht : l.total = sizeofLens + (l.name.val.length + 1) + l.dataLen := rfl
    omega

/-- The calls act on the entries wherever the registry's invariant holds. -/
theorem refines_of_holds (hh : Holds s ls) : Refines s := by
  have hc := consistent_of_holds hh
  obtain ⟨D, lost, A, F, h, hregs⟩ := hh
  have hoff : ∀ l ∈ ls, l.off ∈ s.regs := fun l hl => hregs ▸ List.mem_map_of_mem hl
  refine ⟨?_, ?_, fun env name args r o hrun => ?_, fun env name args r o hrun => ?_,
    fun name r o hrun => ?_, fun env r o lens hl hrun => entries_free h hregs hl hrun,
    fun m lens hl hm => entries_record h hregs hl hm, fun view now lastInc e o hrun => ?_⟩
  · unfold entries
    rw [List.map_map]
    exact (List.map_id _).symm ▸ hc.once
  · unfold entries
    rw [List.map_map]
    exact hc.names
  · refine registers_of_spec h hregs (opticsTypedAlloc_spec h env name args) hrun
      (fun lens a hmade => ?_) (fun _ _ => rfl) (fun hr => by rw [hr]; rfl)
      (fun _ _ hr => by rw [hr]; rfl) fun lens hr _ => by rw [hr]; rfl
    rw [opticsTypedAlloc_eq, hmade] at hrun
    exact opticsAlloc_entered hrun
  · refine registers_of_spec h hregs (opticsTypedAllocGet_spec h env name args) hrun
      (fun lens a hmade => ?_) (fun _ _ => rfl) (fun hr => by rw [hr]; rfl)
      (fun l hl hr => by rw [hr]; exact if_pos (hoff l hl))
      fun lens hr hnot => by rw [hr]; exact if_neg hnot
    rw [opticsTypedAllocGet_eq, hmade] at hrun
    exact opticsAllocGet_entered hrun
  · obtain ⟨keys, r', hrun', -, hres⟩ := opticsLensGet_spec h name
    cases hrun.symm.trans hrun'
    refine ⟨fun lens => ⟨fun hr => ?_, ?_⟩, rfl⟩
    · rcases hres with ⟨hnone, -⟩ | ⟨l, hl, hname, hsome⟩
      · cases hr.symm.trans hnone
      · cases hr.symm.trans hsome
        exact ⟨_, (mem_entries h hregs).mpr ⟨l, hl, rfl⟩, hname, rfl⟩
    · rintro ⟨e, he, hname, rfl⟩
      obtain ⟨l, hl, rfl⟩ := (mem_entries h hregs).mp he
      rcases hres with ⟨-, hnot⟩ | ⟨l', hl', hname', hsome⟩
      · exact absurd ⟨l, hl, hname⟩ hnot
      · rw [hsome, h.keys.eq_of_name hl' hl (hname'.trans hname.symm)]
  · obtain ⟨o', kept, F', hrun', -, -, -, hd⟩ := opticsEpochIncAt_spec h view now
    cases hrun.symm.trans hrun'
    have hkept : ∀ l ∈ ls, Kept s.optics.arena.mem o'.arena.mem l := fun l hl =>
      Kept.of_agree hd.released.frame (List.mem_append_left _ (lens_mem_held hl)) (h.total_le hl)
    rw [entries_eq (s := ⟨(o'.seenBy view).seenBy s.optics.arena.region, s.regs⟩) hregs,
      entries_eq hregs]
    exact entries_kept h hd.inv (List.Subset.refl _) (List.Subset.refl _) hkept

end Calls

/-- **The registry is a table of named cells.** In every state that is reached the calls look up,
enter and remove entries, and the data of a lens changes by stores into it only. -/
theorem registry_refines {s : State} (h : Reachable Start Step s) : Refines s := by
  obtain ⟨ls, hh⟩ := exists_inv h
  exact refines_of_holds hh

/-- The registry with a counter and a histogram, after a distribution has been freed. -/
theorem registry_refines_several : ∃ o, Reachable Start Step ⟨o, [99008, 66240]⟩ ∧
    Refines ⟨o, [99008, 66240]⟩ := by
  obtain ⟨o, h⟩ := several_reachable
  exact ⟨o, h, registry_refines h⟩

end Optics.RegistryData
