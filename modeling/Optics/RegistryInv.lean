import Optics.LensList
import Optics.AllocatorRuns
import Optics.Registry
import Optics.Utils.HtableGrowth

/-! # The registry's invariant

`Inv o ls D lost`: the lenses `ls` are linked from the head of the list, most recent first, and the
table of names maps their names to their offsets; `D e` are the nodes on the list of deferred frees
of epoch `e`; and the blocks of the lenses, of the nodes and of what the nodes name are, together
with `lost`, all the blocks the allocator has handed out. A block that is being worked on, or that a
failed call has dropped, counts as lost.

Each function of the registry has a lemma that says what it does to the invariant. -/

namespace Optics.RegistryInv

open Optics.Base Optics.Lib.Bytes Optics.Lib.LinkedList Optics.Lib.Tiling
open Optics.Regions Optics.Allocator Optics.AllocatorInv Optics.AllocatorRuns
open Optics.Lenses Optics.LensBlocks Optics.LensList Optics.Registry
open Optics.Utils.Htables Optics.Utils.HtableMap

/-- A node of a list of deferred frees, with the block it names. -/
structure Defer where
  node : ℕ
  off : ℕ
  len : ℕ

/-- The blocks a node stands for: the one it names and itself. -/
def Defer.blocks (d : Defer) : List Block := [(d.off, d.len), (d.node, sizeofDefer)]

theorem Defer.node_mem (d : Defer) : (d.node, sizeofDefer) ∈ d.blocks :=
  List.mem_cons_of_mem _ List.mem_cons_self

/-- The node in memory. -/
def DeferAt (m : Mem) (d : Defer) : Prop := deferOff m d.node = d.off ∧ deferLen m d.node = d.len

/-- The lists of deferred frees in memory. -/
structure Deferred (m : Mem) (heads : Fin 2 → ℕ) (D : Fin 2 → List Defer) : Prop where
  chain : ∀ e, Chain (deferNext m) (heads e) ((D e).map Defer.node)
  fields : ∀ e, ∀ d ∈ D e, DeferAt m d

/-- The blocks the lists of deferred frees stand for. -/
def deferBlocks (D : Fin 2 → List Defer) : List Block :=
  (D 0).flatMap Defer.blocks ++ (D 1).flatMap Defer.blocks

/-- The blocks of the registry. -/
def held (ls : List Lens) (D : Fin 2 → List Defer) : List Block :=
  ls.map Lens.block ++ deferBlocks D

/-- The table maps the names of the lenses to their offsets. -/
def KeysOf (keys : Htable) (ls : List Lens) : Prop :=
  ∃ M, Utils.HtableMap.Inv htableHash keys M ∧
    ∀ k v, M.lookup k = some v ↔ ∃ l ∈ ls, l.name = k ∧ l.off = v

/-- **The registry's invariant.** -/
structure Inv (o : StructOptics) (ls : List Lens) (D : Fin 2 → List Defer) (lost : List Block)
    (A F : Fin allocClasses → List ℕ) : Prop where
  arena : AllocatorInv.Inv blockBase o.arena (held ls D ++ lost) A F
  linked : Linked o.arena.mem o.lensHead ls
  deferred : Deferred o.arena.mem o.epochDefers D
  short : ∀ l ∈ ls, l.name.val.length ≤ opticsNameMaxLen
  keys : KeysOf o.keys ls

/-! ### The registry's blocks -/

section Blocks
variable {m m' : Mem} {head : ℕ} {heads : Fin 2 → ℕ} {ls : List Lens} {D : Fin 2 → List Defer}
  {lost : List Block} {o : StructOptics} {A F : Fin allocClasses → List ℕ}

theorem lens_mem_held {l : Lens} (hl : l ∈ ls) : l.block ∈ held ls D :=
  List.mem_append_left _ (List.mem_map_of_mem hl)

theorem mem_deferBlocks {b : Block} : b ∈ deferBlocks D ↔ ∃ e, ∃ d ∈ D e, b ∈ d.blocks := by
  unfold deferBlocks
  rw [List.mem_append, List.mem_flatMap, List.mem_flatMap, Fin.exists_fin_two]

theorem defer_mem_held {e : Fin 2} {d : Defer} (hd : d ∈ D e) {b : Block} (hb : b ∈ d.blocks) :
    b ∈ held ls D := List.mem_append_right _ (mem_deferBlocks.mpr ⟨e, d, hd, hb⟩)

theorem load_defer {bs : List Block} (hm : Agree m m' bs) {node : ℕ}
    (hb : (node, sizeofDefer) ∈ bs) {i : ℕ} (hi : i + 8 ≤ sizeofDefer) :
    load64 m' (node + i) = load64 m (node + i) := by
  have hr : roundLen sizeofDefer = 32 := rfl
  have hs : sizeofDefer = 24 := rfl
  refine load_congr fun b h1 h2 => hm _ hb b ⟨?_, ?_⟩ <;> dsimp only <;> omega

theorem DeferAt.agree {bs : List Block} {d : Defer} (h : DeferAt m d) (hm : Agree m m' bs)
    (hb : (d.node, sizeofDefer) ∈ bs) : DeferAt m' d :=
  ⟨(load_defer hm hb (i := 0) (by decide)).trans h.1,
    (load_defer hm hb (i := 8) (by decide)).trans h.2⟩

theorem Deferred.agree (h : Deferred m heads D) (hm : Agree m m' (deferBlocks D)) :
    Deferred m' heads D := by
  have hmem : ∀ e, ∀ d ∈ D e, (d.node, sizeofDefer) ∈ deferBlocks D := fun e d hd =>
    mem_deferBlocks.mpr ⟨e, d, hd, d.node_mem⟩
  refine ⟨fun e => (h.chain e).congr fun n hn => ?_, fun e d hd => ?_⟩
  · obtain ⟨d, hd, rfl⟩ := List.mem_map.mp hn
    exact load_defer hm (hmem e d hd) (i := 16) (by decide)
  · exact (h.fields e d hd).agree hm (hmem e d hd)

theorem Linked.agree (h : Linked m head ls) (hlen : ∀ l ∈ ls, l.total ≤ allocMaxLen)
    (hm : Agree m m' (ls.map Lens.block)) : Linked m' head ls := by
  have hload : ∀ l ∈ ls, ∀ i, i + 8 ≤ sizeofLens →
      load64 m' (l.off + i) = load64 m (l.off + i) := by
    intro l hl i hi
    have h1 := le_total l
    have h2 := le_roundLen (hlen l hl)
    refine load_congr fun b h3 h4 => hm l.block (List.mem_map_of_mem hl) b ⟨?_, ?_⟩
    · dsimp only [Lens.block_fst]; omega
    · dsimp only [Lens.block_fst, Lens.block_snd]; omega
  refine ⟨h.list.congr (fun n hn => ?_) fun n hn => ?_, fun l hl => ?_⟩
  · obtain ⟨l, hl, rfl⟩ := List.mem_map.mp hn
    exact hload l hl 24 (by decide)
  · obtain ⟨l, hl, rfl⟩ := List.mem_map.mp hn
    exact hload l hl 32 (by decide)
  · exact (h.lensAt l hl).of_agree (List.mem_map_of_mem hl) (hlen l hl) hm

theorem Inv.total_le (h : Inv o ls D lost A F) {l : Lens} (hl : l ∈ ls) :
    l.total ≤ allocMaxLen := h.arena.live_len _ (List.mem_append_left _ (lens_mem_held hl))

theorem Inv.setArena (h : Inv o ls D lost A F) {s : Arena} {lost' : List Block}
    {A' F' : Fin allocClasses → List ℕ}
    (hs : AllocatorInv.Inv blockBase s (held ls D ++ lost') A' F')
    (hm : Agree o.arena.mem s.mem (held ls D)) : Inv (o.setArena s) ls D lost' A' F' where
  arena := hs
  linked := Linked.agree h.linked (fun _ => h.total_le) (hm.subset (List.subset_append_left ..))
  deferred := h.deferred.agree (hm.subset (List.subset_append_right ..))
  short := h.short
  keys := h.keys

theorem Inv.placed (h : Inv o ls D lost A F) : Placed (held ls D ++ lost) ls where
  live _ hl := List.mem_append_left _ (lens_mem_held hl)
  nodup := h.linked.list.chain.nodup

theorem KeysOf.eq_of_name {keys : Htable} (h : KeysOf keys ls) {l l' : Lens} (hl : l ∈ ls)
    (hl' : l' ∈ ls) (hn : l.name = l'.name) : l.off = l'.off := by
  obtain ⟨M, -, hM⟩ := h
  have h1 := (hM l.name l.off).mpr ⟨l, hl, rfl, rfl⟩
  have h2 := (hM l.name l'.off).mpr ⟨l', hl', hn.symm, rfl⟩
  exact Option.some.inj (h1.symm.trans h2)

/-- The name is that of a lens. -/
def Taken (ls : List Lens) (name : CStr) : Prop := ∃ l ∈ ls, l.name = name

theorem clip_name {name : CStr} (h : name.val.length ≤ opticsNameMaxLen) : clip name = name :=
  CStr.take_of_length_le (h.trans (by decide))

end Blocks

/-! ### Blocks that are not in use -/

section Steps
variable {o : StructOptics} {ls : List Lens} {D : Fin 2 → List Defer} {lost : List Block}
  {A F : Fin allocClasses → List ℕ} {l : Lens}

theorem held_cons_perm (l : List Block) (b : Block) (lost : List Block) :
    (b :: (l ++ lost)).Perm (l ++ b :: lost) := List.perm_middle.symm

theorem Inv.made (h : Inv o ls D lost A F) {s : Arena} {l : Lens}
    {A' F' : Fin allocClasses → List ℕ}
    (hm : Made blockBase o.arena (held ls D ++ lost) A F s l A' F') :
    Inv (o.setArena s) ls D (l.block :: lost) A' F' :=
  h.setArena (hm.inv.perm (held_cons_perm ..)) (hm.frame.subset (List.subset_append_left ..))

theorem Inv.notAllocated (h : Inv o ls D lost A F) {s : Arena}
    (hn : NotAllocated blockBase o.arena (held ls D ++ lost) A F s) :
    Inv (o.setArena s) ls D lost A F :=
  h.setArena hn.inv fun _ _ x _ => congrFun hn.mem x

/-- **A block not in use is given back.** -/
theorem Inv.free (h : Inv o ls D lost A F) {b : Block} {lost' : List Block}
    (hp : lost.Perm (b :: lost')) :
    ∃ s F', allocFree o.arena b.1 b.2 = .ok s ∧ Inv (o.setArena s) ls D lost' A F' ∧
      b.1 ∈ F' (classOf b.2) ∧ ∀ c, F c ⊆ F' c := by
  have harena := h.arena.perm ((hp.append_left (held ls D)).trans (held_cons_perm ..).symm)
  have hb : (b.1, b.2) ∈ b :: (held ls D ++ lost') := List.mem_cons_self
  obtain ⟨s, hrun, hi, -, hoff⟩ := allocFree_spec harena hb
  rw [show (b.1, b.2) = b from rfl, List.erase_cons_head] at hi
  refine ⟨s, _, hrun, h.setArena hi ?_, by rw [Function.update_self]; simp, fun c => ?_⟩
  · exact (agree_of_sameOff harena hoff).subset (List.subset_append_left ..)
  · rcases eq_or_ne c (classOf b.2) with rfl | hne
    · rw [Function.update_self]; exact List.subset_cons_self ..
    · rw [Function.update_of_ne hne]; exact List.Subset.refl _

theorem Inv.defer_ne (h : Inv o ls D lost A F) {l : Lens} (hl : l ∈ ls) {b : Block}
    (hb : b ∈ deferBlocks D ++ lost) : b.1 ≠ l.off := by
  have hnd := h.arena.offs_nodup
  rw [held, List.append_assoc, List.map_append] at hnd
  intro he
  refine (List.nodup_append.mp hnd).2.2 l.off ?_ b.1 (List.mem_map_of_mem hb) he.symm
  exact List.mem_map.mpr ⟨l.block, List.mem_map_of_mem hl, rfl⟩

/-- **Stores into the data of a lens.** -/
theorem Inv.record (h : Inv o ls D lost A F) {l : Lens} (hl : l ∈ ls) {m : Mem}
    (hm : SameOff o.arena.mem m (l.off + sizeofLens) l.dataLen) :
    Inv (o.setArena (o.arena.setMem m)) ls D lost A F := by
  have hp := h.placed
  have hr := le_roundLen (h.total_le hl)
  have ht : l.total = sizeofLens + (l.name.val.length + 1) + l.dataLen := rfl
  have hs : sizeofLens = 64 := rfl
  -- the header and the name of every lens are as they were
  have hlens : ∀ r ∈ ls, ∀ x, r.off ≤ x → x < r.off + r.total →
      (x < r.off + sizeofLens ∨ r.off + sizeofLens + r.dataLen ≤ x) → m x = o.arena.mem x := by
    intro r hr x h1 h2 h3
    rcases eq_or_ne r.off l.off with he | hne
    · cases eq_of_off hp.nodup hr hl he
      exact hm x (by omega)
    · have h4 := hp.apart h.arena hr hl hne
      exact hm x (by omega)
  have hload : ∀ r ∈ ls, ∀ i, i + 8 ≤ sizeofLens →
      load64 m (r.off + i) = load64 o.arena.mem (r.off + i) := by
    intro r hr i hi
    have h1 := le_total r
    exact load_congr fun b h2 h3 => hlens r hr b (by omega) (by omega) (Or.inl (by omega))
  have hdata : SameOff o.arena.mem m l.off (roundLen l.total) := hm.mono (by omega) (by omega)
  refine ⟨h.arena.write (hp.live l hl) hdata,
    ⟨h.linked.list.congr (fun n hn => ?_) fun n hn => ?_, fun r hr => ?_⟩,
    h.deferred.agree fun b hb x hx => ?_, h.short, h.keys⟩
  · obtain ⟨r, hr, rfl⟩ := List.mem_map.mp hn
    exact hload r hr 24 (by decide)
  · obtain ⟨r, hr, rfl⟩ := List.mem_map.mp hn
    exact hload r hr 32 (by decide)
  · exact (h.linked.lensAt r hr).congr fun x h1 h2 h3 => hlens r hr x h1 h2 (by omega)
  · have hne := h.defer_ne hl (List.mem_append_left lost hb)
    have h1 := h.arena.apart (List.mem_append_left _ (List.mem_append_right _ hb)) (hp.live l hl)
      (fun he => hne (congrArg Prod.fst he))
    simp only [Lens.block_fst, Lens.block_snd] at h1
    unfold Covers at hx
    dsimp only at hx
    exact hdata x (by omega)

/-! ### The list -/

/-- **Registering a lens.** -/
theorem Inv.push (h : Inv o ls D (l.block :: lost) A F) (hat : LensAt o.arena.mem l)
    (hprev : lensPrev o.arena.mem l.off = 0) (hname : l.name.val.length ≤ opticsNameMaxLen)
    {keys : Htable} (hkeys : KeysOf keys (l :: ls)) :
    ∃ o', opticsPushLens { o with keys := keys } l.off = .ok o' ∧ Inv o' (l :: ls) D lost A F ∧
      o'.keys = keys ∧ o'.epoch = o.epoch ∧ o'.epochDefers = o.epochDefers ∧
      o'.arena.region = o.arena.region := by
  have hmem : l.block ∈ held ls D ++ l.block :: lost := by simp
  have hfresh : l.off ∉ ls.map Lens.off := by
    intro hm
    obtain ⟨r, hr, he⟩ := List.mem_map.mp hm
    exact h.defer_ne hr (b := l.block) (by simp) he.symm
  have hp : Placed (held ls D ++ l.block :: lost) (l :: ls) := by
    refine ⟨fun r hr => ?_, ?_⟩
    · rcases List.mem_cons.mp hr with rfl | hr
      · exact hmem
      · exact h.placed.live r hr
    · rw [List.map_cons]
      exact List.nodup_cons.mpr ⟨hfresh, h.placed.nodup⟩
  obtain ⟨m', hrun, hlinks, hlinked⟩ := lensSetNext_spec h.arena hp h.linked hat hprev
  have hperm : (held ls D ++ l.block :: lost).Perm (held (l :: ls) D ++ lost) :=
    (held_cons_perm _ _ _).symm
  refine ⟨{ o with arena := o.arena.setMem m', keys := keys, lensHead := lensOff m' l.off }, ?_,
    ⟨(hlinks.inv hp h.arena).perm hperm, ?_, ?_, ?_, hkeys⟩, rfl, rfl, rfl, rfl⟩
  · unfold opticsPushLens
    rw [show ({ o with keys := keys } : StructOptics).arena = o.arena from rfl, hrun]
    rfl
  · show Linked m' (lensOff m' l.off) (l :: ls)
    rw [(hlinked.lensAt l List.mem_cons_self).off]
    exact hlinked
  · refine h.deferred.agree (hlinks.agree hp h.arena ?_ ?_)
    · exact fun b hb => List.mem_append_left _ (List.mem_append_right _ hb)
    · intro b hb r hr he
      rcases List.mem_cons.mp hr with rfl | hr
      · have hnd := h.arena.offs_nodup
        rw [held, List.append_assoc, List.map_append, List.map_append] at hnd
        have h1 := (List.nodup_append.mp (List.nodup_append.mp hnd).2.1).2.2
        exact h1 b.1 (List.mem_map_of_mem hb) b.1 (by rw [he]; simp) rfl
      · exact h.defer_ne hr (List.mem_append_left _ hb) (by rw [he]; rfl)
  · intro r hr
    rcases List.mem_cons.mp hr with rfl | hr
    · exact hname
    · exact h.short r hr

/-- **Unregistering a lens.** It keeps what it records, and its block is in use no longer. -/
theorem Inv.remove {l1 l2 : List Lens} (h : Inv o (l1 ++ l :: l2) D lost A F) {keys : Htable}
    (hkeys : KeysOf keys (l1 ++ l2)) :
    ∃ o', opticsRemoveLens { o with keys := keys } l.off = .ok o' ∧
      Inv o' (l1 ++ l2) D (l.block :: lost) A F ∧ LensAt o'.arena.mem l ∧
      o'.arena.alloc = o.arena.alloc ∧ o'.arena.region = o.arena.region ∧ o'.keys = keys ∧
      o'.epoch = o.epoch ∧ o'.epochDefers = o.epochDefers := by
  have hl : l ∈ l1 ++ l :: l2 := by simp
  have hp := h.placed
  obtain ⟨m', hrun, hlinks, hnext, hlinked⟩ := lensKill_spec h.arena rfl hp h.linked
  have hat : LensAt m' l := hlinks.lensAt hp h.arena hl (h.linked.lensAt l hl)
  have hperm : (held (l1 ++ l :: l2) D ++ lost).Perm (held (l1 ++ l2) D ++ l.block :: lost) := by
    unfold held
    rw [List.map_append, List.map_cons, List.map_append]
    refine List.Perm.trans ?_ (held_cons_perm _ _ _)
    simp only [List.append_assoc, List.cons_append]
    exact List.perm_middle
  set head' := if o.lensHead = l.off then lensNext o.arena.mem l.off else o.lensHead with hhead
  refine ⟨{ o with arena := o.arena.setMem m', keys := keys, lensHead := head' }, ?_,
    ⟨(hlinks.inv hp h.arena).perm hperm, hlinked, h.deferred.agree ?_, fun r hr => ?_, hkeys⟩, hat,
    rfl, rfl, rfl, rfl, rfl⟩
  · unfold opticsRemoveLens
    rw [show ({ o with keys := keys } : StructOptics).arena = o.arena from rfl, hrun, ok_bind]
    refine congrArg Except.ok ?_
    by_cases hh : o.lensHead = l.off
    · refine (if_pos (hh.trans hat.off.symm)).trans ?_
      rw [hhead, if_pos hh, ← hnext]
      rfl
    · refine (if_neg (fun hc => hh (Eq.trans hc hat.off))).trans ?_
      rw [hhead, if_neg hh]
      rfl
  · refine hlinks.agree hp h.arena ?_ fun b hb r hr he => ?_
    · exact fun b hb => List.mem_append_left _ (List.mem_append_right _ hb)
    · exact h.defer_ne hr (List.mem_append_left _ hb) (by rw [he]; rfl)
  · exact h.short r (mem_of_mem_remove hr)

/-! ### Deferred frees -/

theorem deferBlocks_cons (D : Fin 2 → List Defer) (e : Fin 2) (d : Defer) :
    (deferBlocks (Function.update D e (d :: D e))).Perm (d.blocks ++ deferBlocks D) := by
  unfold deferBlocks
  rcases Fin.exists_fin_two.mp ⟨e, rfl⟩ with he | he
  · subst he
    rw [Function.update_self, Function.update_of_ne (by decide), List.flatMap_cons,
      List.append_assoc]
  · subst he
    rw [Function.update_self, Function.update_of_ne (by decide), List.flatMap_cons,
      ← List.append_assoc, ← List.append_assoc]
    exact List.perm_append_comm.append_right _

theorem held_push_perm (ls : List Lens) (D : Fin 2 → List Defer) (lost : List Block) (e : Fin 2)
    (d : Defer) : List.Perm ((d.node, sizeofDefer) :: (held ls D ++ (d.off, d.len) :: lost))
      (held ls (Function.update D e (d :: D e)) ++ lost) := by
  unfold held
  have hp := (deferBlocks_cons D e d).symm
  refine List.Perm.trans ?_ ((hp.append_left (ls.map Lens.block)).append_right lost)
  simp only [Defer.blocks, List.append_assoc, List.cons_append, List.nil_append]
  refine List.Perm.trans (List.Perm.cons _ ?_) (List.perm_middle.trans
    ((List.Perm.cons (d.off, d.len) List.perm_middle).trans (List.Perm.swap ..))).symm
  rw [← List.append_assoc, ← List.append_assoc]
  exact List.perm_middle

theorem Deferred.push {m : Mem} {heads : Fin 2 → ℕ} {D : Fin 2 → List Defer}
    (h : Deferred m heads D) (e : Fin 2) {d : Defer} (hnode : d.node ≠ 0) (hd : DeferAt m d)
    (hnext : deferNext m d.node = heads e) :
    Deferred m (Function.update heads e d.node) (Function.update D e (d :: D e)) := by
  refine ⟨fun e' => ?_, fun e' d' hd' => ?_⟩
  · rcases eq_or_ne e' e with rfl | hne
    · rw [Function.update_self, Function.update_self, List.map_cons]
      refine chain_cons.mpr ⟨rfl, hnode, ?_⟩
      rw [hnext]
      exact h.chain e'
    · rw [Function.update_of_ne hne, Function.update_of_ne hne]
      exact h.chain e'
  · rcases eq_or_ne e' e with rfl | hne
    · rw [Function.update_self, List.mem_cons] at hd'
      rcases hd' with rfl | hd'
      · exact hd
      · exact h.fields e' d' hd'
    · rw [Function.update_of_ne hne] at hd'
      exact h.fields e' d' hd'

theorem Inv.defers_lt (h : Inv o ls D lost A F) (e : Fin 2) : o.epochDefers e < 2 ^ 64 := by
  rcases Nat.eq_zero_or_pos (o.epochDefers e) with h0 | h0
  · rw [h0]; decide
  obtain ⟨l', hl', -⟩ := (h.deferred.chain e).uncons (by omega)
  obtain ⟨d, hd, hdn⟩ := List.mem_map.mp (show o.epochDefers e ∈ (D e).map Defer.node by
    rw [hl']; exact List.mem_cons_self)
  have h1 := h.arena.live_inside (b := (d.node, sizeofDefer))
    (List.mem_append_left _ (defer_mem_held hd d.node_mem))
  have h2 := h.arena.owner.pos_lt
  dsimp only at h1
  omega

theorem deferNode_fields (m : Mem) (node off len : ℕ) {next : ℕ} (hoff : off < 2 ^ 64)
    (hlen : len < 2 ^ 64) (hnext : next < 2 ^ 64) :
    let m' := store64 (store64 (store64 m node off) (node + 8) len) (node + 16) next
    SameOff m m' node sizeofDefer ∧ deferOff m' node = off ∧ deferLen m' node = len ∧
      deferNext m' node = next := by
  have hs : sizeofDefer = 24 := rfl
  have d3 : ∀ {b : ℕ} (m : Mem), b + 8 ≤ node + 16 → load64 (store64 m (node + 16) next) b =
      load64 m b := fun m h => load_of_sameOff (sameOff_store _ _ _ _) (Or.inl h)
  have d2 : ∀ {b : ℕ} (m : Mem), b + 8 ≤ node + 8 → load64 (store64 m (node + 8) len) b =
      load64 m b := fun m h => load_of_sameOff (sameOff_store _ _ _ _) (Or.inl h)
  refine ⟨?_, ?_, ?_, load64_store64 hnext⟩
  · have h1 : SameOff m (store64 m node off) node sizeofDefer :=
      (sameOff_store _ _ _ _).mono le_rfl (by omega)
    have h2 := h1.trans ((sameOff_store _ 8 (node + 8) len).mono (by omega) (by omega))
    exact h2.trans ((sameOff_store _ 8 (node + 16) next).mono (by omega) (by omega))
  · unfold deferOff
    rw [d3 _ (by omega), d2 _ (by omega)]
    exact load64_store64 hoff
  · unfold deferLen
    rw [d3 _ (by omega)]
    exact load64_store64 hlen

/-- **Putting off the release of a block.** It is on the list of the epoch, or the node could not be
had and nothing holds it. -/
theorem Inv.defer {b : Block} (h : Inv o ls D (b :: lost) A F) (env : GrowEnv) :
    ∃ r o', opticsDeferFree env o b.1 b.2 = .ok (r, o') ∧ o'.keys = o.keys ∧ o'.epoch = o.epoch ∧
      ((Exhausted env o.arena sizeofDefer ∧ r = false ∧ o'.epochDefers = o.epochDefers ∧
          Inv o' ls D (b :: lost) A F) ∨
        (¬ Exhausted env o.arena sizeofDefer ∧ r = true ∧ ∃ node A' F',
          Took o.arena.region A F sizeofDefer node o'.arena.region A' F' ∧ Inv o' ls
            (Function.update D (opticsEpoch o) (⟨node, b.1, b.2⟩ :: D (opticsEpoch o)))
            lost A' F')) := by
  have hsize : sizeofDefer ≤ allocMaxLen := by decide
  obtain ⟨node, s, hrun, hres⟩ := allocAlloc_spec h.arena env hsize
  unfold opticsDeferFree
  rw [hrun, ok_bind]
  dsimp only
  rcases hres with ⟨hex, rfl, hn⟩ | ⟨hex, hnode, A', F', ha⟩
  · rw [if_pos rfl]
    exact ⟨false, _, rfl, rfl, rfl, Or.inl ⟨hex, rfl, rfl, h.notAllocated hn⟩⟩
  rw [if_neg hnode, ha.inv.ptr List.mem_cons_self (show sizeofDefer ≤ roundLen sizeofDefer by decide)]
  dsimp only [setArena_epochDefers]
  rw [show opticsEpoch (o.setArena s) = opticsEpoch o from rfl]
  set e := opticsEpoch o with he
  have hb : b ∈ (node, sizeofDefer) :: (held ls D ++ b :: lost) := by simp
  have hbin := ha.inv.live_inside hb
  have hblen := ha.inv.live_len b hb
  have hpos := ha.inv.owner.pos_lt
  obtain ⟨hoff, f1, f2, f3⟩ := deferNode_fields s.mem node b.1 b.2
    (by omega) (lt_of_le_of_lt hblen (by decide)) (h.defers_lt e)
  set m := store64 (store64 (store64 s.mem node b.1) (node + 8) b.2) (node + 16)
    (o.epochDefers e) with hm
  have hoff' : SameOff s.mem m node (roundLen sizeofDefer) := hoff.mono le_rfl
    (Nat.add_le_add_left (show sizeofDefer ≤ roundLen sizeofDefer by decide) node)
  have hagree : Agree o.arena.mem m (held ls D ++ b :: lost) :=
    Agree.trans ha.frame (agree_of_sameOff ha.inv hoff')
  have hinv := ha.inv.write List.mem_cons_self hoff'
  have hbase := h.setArena (s := s.setMem m) (hinv.perm (held_cons_perm _ _ _))
    (hagree.subset (List.subset_append_left ..))
  refine ⟨true, _, rfl, rfl, rfl, Or.inr ⟨hex, rfl, node, A', F', ha.took, ?_, hbase.linked, ?_,
    hbase.short, hbase.keys⟩⟩
  · exact hinv.perm (held_push_perm ls D lost e ⟨node, b.1, b.2⟩)
  · exact hbase.deferred.push e (d := ⟨node, b.1, b.2⟩) hnode ⟨f1, f2⟩ f3

end Steps

end Optics.RegistryInv
