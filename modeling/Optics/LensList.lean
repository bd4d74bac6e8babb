import Optics.LensBlocks

/-! # The list of lenses in memory

`Linked m head ls`: the lenses `ls` are recorded in `m` and doubly linked from `head` on.
`lensSetNext_spec` and `lensKill_spec` are the two edits of the list. Each changes nothing but the
links of lenses of the list (`LinksOnly`) and runs into none of its assertions. -/

namespace Optics.LensList

open Optics.Base Optics.Lib.Bytes Optics.Lib.LinkedList Optics.Lib.Tiling
open Optics.Regions Optics.Allocator Optics.AllocatorInv Optics.Lenses Optics.LensBlocks

/-- The lenses are recorded and linked. -/
structure Linked (m : Mem) (head : ℕ) (ls : List Lens) : Prop where
  list : DChain (lensNext m) (lensPrev m) head (ls.map Lens.off)
  lensAt : ∀ l ∈ ls, LensAt m l

/-- Nothing but the links of the lenses differs. -/
def LinksOnly (m m' : Mem) (ls : List Lens) : Prop :=
  ∀ x, (∀ l ∈ ls, ¬(l.off + 24 ≤ x ∧ x < l.off + 40)) → m' x = m x

/-- The lenses are blocks in the hands of callers, at different places. -/
structure Placed (live : List Block) (ls : List Lens) : Prop where
  live : ∀ l ∈ ls, l.block ∈ live
  nodup : (ls.map Lens.off).Nodup

section Links
variable {m m' m'' : Mem} {ls ls' : List Lens}

theorem LinksOnly.trans (h : LinksOnly m m' ls) (h' : LinksOnly m' m'' ls) : LinksOnly m m'' ls :=
  fun x hx => (h' x hx).trans (h x hx)

theorem LinksOnly.refl (m : Mem) (ls : List Lens) : LinksOnly m m ls := fun _ _ => rfl

theorem linksOnly_next {l : Lens} (hl : l ∈ ls) (m : Mem) (v : ℕ) :
    LinksOnly m (store64 m (l.off + 24) v) ls := by
  intro x hx
  have := hx l hl
  exact sameOff_store _ _ _ _ x (by omega)

theorem linksOnly_prev {l : Lens} (hl : l ∈ ls) (m : Mem) (v : ℕ) :
    LinksOnly m (store64 m (l.off + 32) v) ls := by
  intro x hx
  have := hx l hl
  exact sameOff_store _ _ _ _ x (by omega)

theorem links_store_next {a n v : ℕ} (hn : n = a ∨ n + sizeofLens ≤ a ∨ a + sizeofLens ≤ n)
    (hv : v < 2 ^ 64) : lensNext (store64 m (a + 24) v) n = (if n = a then v else lensNext m n) ∧
      lensPrev (store64 m (a + 24) v) n = lensPrev m n := by
  have hs : sizeofLens = 64 := rfl
  refine ⟨?_, load_of_sameOff (sameOff_store _ _ _ _) (by omega)⟩
  split_ifs with hna
  · rw [hna]
    exact load64_store64 hv
  · exact load_of_sameOff (sameOff_store _ _ _ _) (by omega)

theorem links_store_prev {a n v : ℕ} (hn : n = a ∨ n + sizeofLens ≤ a ∨ a + sizeofLens ≤ n)
    (hv : v < 2 ^ 64) : lensPrev (store64 m (a + 32) v) n = (if n = a then v else lensPrev m n) ∧
      lensNext (store64 m (a + 32) v) n = lensNext m n := by
  have hs : sizeofLens = 64 := rfl
  refine ⟨?_, load_of_sameOff (sameOff_store _ _ _ _) (by omega)⟩
  split_ifs with hna
  · rw [hna]
    exact load64_store64 hv
  · exact load_of_sameOff (sameOff_store _ _ _ _) (by omega)

variable {lo : ℕ} {s : Arena} {live : List Block} {A F : Fin allocClasses → List ℕ}

theorem eq_of_off {ls : List Lens} (h : (ls.map Lens.off).Nodup) {l l' : Lens} (hl : l ∈ ls)
    (hl' : l' ∈ ls) (ho : l.off = l'.off) : l = l' :=
  List.inj_on_of_nodup_map h hl hl' ho

theorem Placed.apart (hp : Placed live ls) (hi : Inv lo s live A F) {l l' : Lens} (hl : l ∈ ls)
    (hl' : l' ∈ ls) (hne : l.off ≠ l'.off) :
    l.off + l.total ≤ l'.off ∨ l'.off + l'.total ≤ l.off := by
  have h := hi.apart (hp.live l hl) (hp.live l' hl')
    (fun he => hne (congrArg Prod.fst he : l.block.1 = l'.block.1))
  have h1 : l.total ≤ roundLen l.total := le_roundLen (hi.live_len _ (hp.live l hl))
  have h2 : l'.total ≤ roundLen l'.total := le_roundLen (hi.live_len _ (hp.live l' hl'))
  simp only [Lens.block_fst, Lens.block_snd] at h
  omega

theorem le_total (l : Lens) : sizeofLens ≤ l.total := by
  unfold Lens.total
  omega

theorem Placed.header_apart (hp : Placed live ls) (hi : Inv lo s live A F) {l l' : Lens}
    (hl : l ∈ ls) (hl' : l' ∈ ls) :
    l.off = l'.off ∨ l.off + sizeofLens ≤ l'.off ∨ l'.off + sizeofLens ≤ l.off := by
  rcases eq_or_ne l.off l'.off with he | hne
  · exact Or.inl he
  · have h := hp.apart hi hl hl' hne
    have h1 := le_total l
    have h2 := le_total l'
    omega

/-- **Changing the links keeps every lens recorded.** -/
theorem LinksOnly.lensAt (h : LinksOnly m m' ls) (hp : Placed live ls) (hi : Inv lo s live A F)
    {l : Lens} (hl : l ∈ ls) (hat : LensAt m l) : LensAt m' l := by
  refine hat.congr fun x h1 h2 h3 => h x fun l' hl' hx => ?_
  have hs : sizeofLens = 64 := rfl
  rcases eq_or_ne l.off l'.off with he | hne
  · omega
  · have h4 := hp.apart hi hl hl' hne
    have h5 := le_total l
    have h6 := le_total l'
    omega

theorem cover_of_link (hp : Placed live ls) (hi : Inv lo s live A F) {l : Lens} (hl : l ∈ ls)
    {x : ℕ} (hx : l.off + 24 ≤ x ∧ x < l.off + 40) : cover (liveBlocks live) x ≠ 0 := by
  have h1 : l.total ≤ roundLen l.total := le_roundLen (hi.live_len _ (hp.live l hl))
  have h2 := le_total l
  have hs : sizeofLens = 64 := rfl
  refine (cover_pos (mem_liveBlocks (hp.live l hl)) ⟨?_, ?_⟩).ne'
  · dsimp only [Lens.block_fst]; omega
  · dsimp only [Lens.block_fst, Lens.block_snd]; omega

/-- **Changing the links keeps the partition.** -/
theorem LinksOnly.inv (h : LinksOnly s.mem m' ls) (hp : Placed live ls) (hi : Inv lo s live A F) :
    Inv lo (s.setMem m') live A F :=
  hi.write_held fun x hx => h x fun _ hl hlx => cover_of_link hp hi hl hlx hx

theorem LinksOnly.agree (h : LinksOnly m m' ls) (hp : Placed live ls) (hi : Inv lo s live A F)
    {bs : List Block} (hbs : bs ⊆ live) (hne : ∀ b ∈ bs, ∀ l ∈ ls, b ≠ l.block) :
    Agree m m' bs := by
  intro b hb x hx
  refine h x fun l hl hlx => ?_
  have h1 := hi.apart (hbs hb) (hp.live l hl) (hne b hb l hl)
  have h2 : l.total ≤ roundLen l.total := le_roundLen (hi.live_len _ (hp.live l hl))
  have h3 := le_total l
  have hs : sizeofLens = 64 := rfl
  simp only [Lens.block_fst, Lens.block_snd] at h1
  unfold Covers at hx
  dsimp only at hx
  omega

theorem Placed.off_lt (hp : Placed live ls) (hi : Inv lo s live A F) {l : Lens} (hl : l ∈ ls) :
    0 < l.off ∧ l.off < 2 ^ 63 := by
  have h1 := hi.live_inside (hp.live l hl)
  have h2 := hi.owner.pos_lt
  have h3 := hi.lo_pos
  simp only [Lens.block_fst, Lens.block_snd] at h1
  omega

end Links

/-! ### Pushing -/

section Push
variable {lo head : ℕ} {s : Arena} {live : List Block} {A F : Fin allocClasses → List ℕ}
  {l : Lens} {ls : List Lens}

/-- **What `lens_set_next` does** with the head of the list: the lens becomes the first. -/
theorem lensSetNext_spec (hi : Inv lo s live A F) (hp : Placed live (l :: ls))
    (h : Linked s.mem head ls) (hl : LensAt s.mem l) (hprev : lensPrev s.mem l.off = 0) :
    ∃ m', lensSetNext s l.off head = .ok (s.setMem m') ∧ LinksOnly s.mem m' (l :: ls) ∧
      Linked m' l.off (l :: ls) := by
  have hmem : l ∈ l :: ls := List.mem_cons_self
  obtain ⟨hpos, hlt⟩ := hp.off_lt hi hmem
  have hhead : head < 2 ^ 64 := by
    cases ls with
    | nil => rw [chain_nil.mp h.list.chain]; decide
    | cons r ls =>
      rw [show head = r.off from h.list.1]
      exact lt_trans (hp.off_lt hi (by simp)).2 (by decide)
  set m1 := store64 s.mem (l.off + 24) head with hm1
  have ho1 : LinksOnly s.mem m1 (l :: ls) := linksOnly_next hmem _ _
  have hcons : ∀ {m'}, LinksOnly s.mem m' (l :: ls) → ∀ r ∈ l :: ls, LensAt m' r := by
    intro m' ho r hr
    refine ho.lensAt hp hi hr ?_
    rcases List.mem_cons.mp hr with rfl | hr
    · exact hl
    · exact h.lensAt r hr
  have hnext : ∀ r ∈ l :: ls, lensNext m1 r.off = (if r.off = l.off then head else
      lensNext s.mem r.off) ∧ lensPrev m1 r.off = lensPrev s.mem r.off :=
    fun r hr => links_store_next (hp.header_apart hi hr hmem) hhead
  have hfresh : ∀ r ∈ ls, r.off ≠ l.off := by
    intro r hr he
    exact (List.nodup_cons.mp hp.nodup).1 (he ▸ List.mem_map_of_mem hr)
  unfold lensSetNext
  dsimp only
  by_cases h0 : head = 0
  · -- the first lens of an empty list
    have hnil : ls = [] := List.map_eq_nil_iff.mp (h.list.chain.eq_nil_iff.mpr h0)
    subst hnil
    rw [if_pos h0]
    refine ⟨m1, rfl, ho1, ⟨rfl, by omega, ?_, ?_⟩, hcons ho1⟩
    · exact ((hnext l hmem).2).trans hprev
    · show lensNext m1 l.off = 0
      rw [(hnext l hmem).1, if_pos rfl, h0]
  · rw [if_neg h0]
    obtain ⟨r, ls', rfl, hr⟩ : ∃ r ls', ls = r :: ls' ∧ r.off = head := by
      cases ls with
      | nil => exact absurd (chain_nil.mp h.list.chain) h0
      | cons r ls' => exact ⟨r, ls', rfl, h.list.1.symm⟩
    have hrmem : r ∈ l :: r :: ls' := by simp
    have hi1 := ho1.inv hp hi
    have hptr : lensPtr (s.setMem m1) head = some head := by
      rw [← hr]
      exact lensPtr_live hi1 (hp.live r hrmem) (hcons ho1 r hrmem)
    have hrprev : lensPrev m1 head = 0 := by
      rw [← hr, (hnext r hrmem).2]
      exact h.list.2.2.1
    rw [hptr]
    dsimp only
    rw [setMem_mem, opticsAssert_pos hrprev, ok_bind]
    have hoff : lensOff m1 l.off = l.off := (hcons ho1 l hmem).off
    rw [hoff]
    set m2 := store64 m1 (head + 32) l.off with hm2
    have ho2 : LinksOnly s.mem m2 (l :: r :: ls') := by
      rw [hm2, ← hr]
      exact ho1.trans (linksOnly_prev hrmem _ _)
    have hlinks : ∀ n ∈ l :: r :: ls', lensPrev m2 n.off = (if n.off = head then l.off else
        lensPrev s.mem n.off) ∧ lensNext m2 n.off = (if n.off = l.off then head else
        lensNext s.mem n.off) := by
      intro n hn
      have h1 := links_store_prev (m := m1) (v := l.off) (hp.header_apart hi hn hrmem) (by omega)
      rw [hr, (hnext n hn).2, (hnext n hn).1] at h1
      exact h1
    refine ⟨m2, rfl, ho2, ?_, hcons ho2⟩
    refine DChain.push h.list (by omega) ?_ ?_ (fun n hn => ?_) (fun n hn hne => ?_) fun _ => ?_
    · rw [(hlinks l hmem).2, if_pos rfl]
    · rw [(hlinks l hmem).1, if_neg (by rw [← hr]; exact (hfresh r (by simp)).symm)]
      exact hprev
    · obtain ⟨t, ht, rfl⟩ := List.mem_map.mp hn
      rw [(hlinks t (List.mem_cons_of_mem _ ht)).2, if_neg (hfresh t ht)]
    · obtain ⟨t, ht, rfl⟩ := List.mem_map.mp hn
      rw [(hlinks t (List.mem_cons_of_mem _ ht)).1, if_neg hne]
    · rw [← hr, (hlinks r hrmem).1, if_pos hr]

end Push

/-! ### Unlinking -/

section Kill
variable {lo head : ℕ} {s : Arena} {live : List Block} {A F : Fin allocClasses → List ℕ}
  {l : Lens} {ls : List Lens}

theorem mem_of_mem_remove {r : Lens} {l1 l2 : List Lens} (h : r ∈ l1 ++ l2) :
    r ∈ l1 ++ l :: l2 :=
  List.mem_append.mpr ((List.mem_append.mp h).imp_right (List.mem_cons_of_mem l))

theorem Linked.exists_of_mem {a : ℕ} (ha : a = 0 ∨ a ∈ ls.map Lens.off) (h0 : a ≠ 0) :
    ∃ r ∈ ls, r.off = a := List.mem_map.mp (ha.resolve_left h0)

/-- **The successor's half.** -/
theorem lensKillNext_spec (hi : Inv lo s live A F) (hp : Placed live ls)
    (h : Linked s.mem head ls) (hl : l ∈ ls) :
    ∃ m', lensKillNext s l.off (lensNext s.mem l.off) = .ok (s.setMem m') ∧
      LinksOnly s.mem m' ls ∧ ∀ n ∈ ls, lensNext m' n.off = lensNext s.mem n.off ∧
        lensPrev m' n.off = if lensNext s.mem l.off ≠ 0 ∧ n.off = lensNext s.mem l.off then
          lensPrev s.mem l.off else lensPrev s.mem n.off := by
  unfold lensKillNext
  by_cases h0 : lensNext s.mem l.off = 0
  · rw [if_pos h0]
    exact ⟨s.mem, rfl, LinksOnly.refl _ _, fun n _ => ⟨rfl, by rw [if_neg (fun hc => hc.1 h0)]⟩⟩
  rw [if_neg h0]
  have hlo : l.off ∈ ls.map Lens.off := List.mem_map_of_mem hl
  obtain ⟨r, hr, hro⟩ := Linked.exists_of_mem (h.list.next_mem hlo) h0
  have hback : lensPrev s.mem r.off = l.off := by
    rw [hro]
    exact h.list.prev_next hlo h0
  rw [← hro, lensPtr_live hi (hp.live r hr) (h.lensAt r hr)]
  dsimp only
  rw [opticsAssert_pos (by rw [hback, (h.lensAt l hl).off]), ok_bind]
  refine ⟨_, rfl, linksOnly_prev hr _ _, fun n hn => ?_⟩
  have hlt : lensPrev s.mem l.off < 2 ^ 64 := load64_lt _ _
  have h1 := links_store_prev (m := s.mem) (hp.header_apart hi hn hr) hlt
  refine ⟨h1.2, h1.1.trans (if_congr ?_ rfl rfl)⟩
  rw [hro]
  exact ⟨fun he => ⟨h0, he⟩, And.right⟩

/-- **The predecessor's half**, in memory where that of the successor is done. -/
theorem lensKillPrev_spec (hi : Inv lo s live A F) (hp : Placed live ls) (hl : l ∈ ls)
    (hat : ∀ r ∈ ls, LensAt s.mem r) (hmem : lensPrev s.mem l.off = 0 ∨
      lensPrev s.mem l.off ∈ ls.map Lens.off)
    (hback : lensPrev s.mem l.off ≠ 0 → lensNext s.mem (lensPrev s.mem l.off) = l.off) {v : ℕ}
    (hv : v < 2 ^ 64) :
    ∃ m', lensKillPrev s l.off v = .ok (s.setMem m') ∧
      LinksOnly s.mem m' ls ∧ ∀ n ∈ ls, lensPrev m' n.off = lensPrev s.mem n.off ∧
        lensNext m' n.off = if lensPrev s.mem l.off ≠ 0 ∧ n.off = lensPrev s.mem l.off then
          v else lensNext s.mem n.off := by
  unfold lensKillPrev
  by_cases h0 : lensPrev s.mem l.off = 0
  · rw [if_pos h0]
    exact ⟨s.mem, rfl, LinksOnly.refl _ _, fun n _ => ⟨rfl, by rw [if_neg (fun hc => hc.1 h0)]⟩⟩
  rw [if_neg h0]
  obtain ⟨r, hr, hro⟩ := Linked.exists_of_mem hmem h0
  have hr' := hback h0
  rw [← hro] at hr'
  rw [← hro, lensPtr_live hi (hp.live r hr) (hat r hr)]
  dsimp only
  rw [opticsAssert_pos (by rw [hr', (hat l hl).off]), ok_bind]
  refine ⟨_, rfl, linksOnly_next hr _ _, fun n hn => ?_⟩
  have h1 := links_store_next (m := s.mem) (hp.header_apart hi hn hr) hv
  refine ⟨h1.2, h1.1.trans (if_congr ?_ rfl rfl)⟩
  rw [hro]
  exact ⟨fun he => ⟨h0, he⟩, And.right⟩

/-- **The list without a lens**: the links of its neighbours are those it had. -/
theorem Linked.remove {m m' : Mem} {l1 l2 : List Lens} (h : Linked m head ls)
    (hls : ls = l1 ++ l :: l2) (hpos : ∀ r ∈ ls, 0 < r.off)
    (hn : ∀ r ∈ ls, lensNext m' r.off = if lensPrev m l.off ≠ 0 ∧ r.off = lensPrev m l.off then
      lensNext m l.off else lensNext m r.off)
    (hp : ∀ r ∈ ls, lensPrev m' r.off = if lensNext m l.off ≠ 0 ∧ r.off = lensNext m l.off then
      lensPrev m l.off else lensPrev m r.off) :
    DChain (lensNext m') (lensPrev m') (if head = l.off then lensNext m l.off else head)
      ((l1 ++ l2).map Lens.off) := by
  have hl : l ∈ ls := by rw [hls]; simp
  have hlo : l.off ∈ ls.map Lens.off := List.mem_map_of_mem hl
  have hlpos := hpos l hl
  have hlist : DSeg (lensNext m) (lensPrev m) 0 head
      (l1.map Lens.off ++ l.off :: l2.map Lens.off) := by
    have h1 := h.list
    rw [hls, List.map_append, List.map_cons] at h1
    exact h1
  have hsub : ∀ {n : ℕ}, n ∈ l1.map Lens.off ++ l2.map Lens.off → ∃ r ∈ ls, r.off = n := by
    intro n hn
    rw [← List.map_append] at hn
    obtain ⟨r, hr, rfl⟩ := List.mem_map.mp hn
    exact ⟨r, hls ▸ mem_of_mem_remove hr, rfl⟩
  rw [List.map_append]
  show DSeg (lensNext m') (lensPrev m') 0 _ (l1.map Lens.off ++ l2.map Lens.off)
  refine DSeg.remove (f := lensNext m) (g := lensPrev m) hlist hlpos.ne (fun n hnm => ?_)
    (fun n hnm => ?_) (fun he => if_pos he) fun hne => if_neg hne
  · obtain ⟨r, hr, rfl⟩ := hsub hnm
    have hrpos := hpos r hr
    rw [hn r hr]
    constructor
    · intro he
      -- the lens that links to the removed one is its predecessor
      have hrl : lensPrev m l.off = r.off := by
        rw [← he]
        exact h.list.prev_next (List.mem_map_of_mem hr) (by omega)
      exact if_pos ⟨by omega, hrl.symm⟩
    · intro hne
      refine if_neg fun hc => hne ?_
      rw [hc.2]
      rcases h.list.prev_mem hlo with ⟨-, h0⟩ | ⟨-, h0⟩
      · exact absurd h0 hc.1
      · exact h0
  · obtain ⟨r, hr, rfl⟩ := hsub hnm
    have hrpos := hpos r hr
    rw [hp r hr]
    constructor
    · intro he
      -- and the lens that knows it as its predecessor is its successor
      have hrl : lensNext m l.off = r.off := by
        rcases h.list.prev_mem (List.mem_map_of_mem hr) with ⟨-, h0⟩ | ⟨-, h0⟩
        · omega
        · rw [← he]; exact h0
      exact if_pos ⟨by omega, hrl.symm⟩
    · intro hne
      refine if_neg fun hc => hne ?_
      rw [hc.2]
      exact h.list.prev_next hlo hc.1

/-- **What `lens_kill` does**: the list goes on without the lens, which keeps its own links. -/
theorem lensKill_spec (hi : Inv lo s live A F) {l1 l2 : List Lens} (hls : ls = l1 ++ l :: l2)
    (hp : Placed live ls) (h : Linked s.mem head ls) :
    ∃ m', lensKill s l.off = .ok (s.setMem m') ∧ LinksOnly s.mem m' ls ∧
      lensNext m' l.off = lensNext s.mem l.off ∧
      Linked m' (if head = l.off then lensNext s.mem l.off else head) (l1 ++ l2) := by
  have hl : l ∈ ls := by rw [hls]; simp
  have hlo : l.off ∈ ls.map Lens.off := List.mem_map_of_mem hl
  obtain ⟨hpos, -⟩ := hp.off_lt hi hl
  obtain ⟨m1, hrun1, ho1, hlink1⟩ := lensKillNext_spec hi hp h hl
  have hi1 := ho1.inv hp hi
  -- the lens is not its own neighbour
  have hself : lensNext s.mem l.off ≠ 0 → l.off ≠ lensNext s.mem l.off := by
    intro h0 he
    have hnd := h.list.chain.nodup
    rw [hls, List.map_append, List.map_cons] at hnd
    have hch := h.list.chain
    rw [hls, List.map_append, List.map_cons] at hch
    obtain ⟨-, -, hrest⟩ := chain_cons.mp hch.suffix
    obtain ⟨l', hl', -⟩ := hrest.uncons h0
    have h1 := (List.nodup_append.mp hnd).2.1
    rw [hl', ← he] at h1
    simp at h1
  have hprev1 : lensPrev m1 l.off = lensPrev s.mem l.off := by
    rw [(hlink1 l hl).2, if_neg (fun hc => hself hc.1 hc.2)]
  have hprevmem : lensPrev s.mem l.off = 0 ∨ lensPrev s.mem l.off ∈ ls.map Lens.off ∧
      lensNext s.mem (lensPrev s.mem l.off) = l.off :=
    (h.list.prev_mem hlo).imp And.right id
  have hback1 : lensPrev m1 l.off ≠ 0 → lensNext m1 (lensPrev m1 l.off) = l.off := by
    rw [hprev1]
    intro h0
    obtain ⟨hm, hn⟩ := hprevmem.resolve_left h0
    obtain ⟨r, hr, hro⟩ := List.mem_map.mp hm
    rw [← hro, (hlink1 r hr).1, hro]
    exact hn
  obtain ⟨m2, hrun2, ho2, hlink2⟩ : ∃ m2, lensKillPrev (s.setMem m1) l.off (lensNext s.mem l.off) =
      .ok (s.setMem m2) ∧ LinksOnly m1 m2 ls ∧ ∀ n ∈ ls, lensPrev m2 n.off = lensPrev m1 n.off ∧
        lensNext m2 n.off = if lensPrev m1 l.off ≠ 0 ∧ n.off = lensPrev m1 l.off then
          lensNext s.mem l.off else lensNext m1 n.off :=
    lensKillPrev_spec hi1 hp hl (fun r hr => ho1.lensAt hp hi hr (h.lensAt r hr))
      (by rw [setMem_mem, hprev1]; exact hprevmem.imp id And.left) hback1
      (show lensNext s.mem l.off < 2 ^ 64 from load64_lt _ _)
  have ho : LinksOnly s.mem m2 ls := ho1.trans ho2
  have hnextself : lensNext m2 l.off = lensNext s.mem l.off := by
    rw [(hlink2 l hl).2]
    exact ite_eq_left_iff.mpr fun _ => (hlink1 l hl).1
  refine ⟨m2, ?_, ho, hnextself, ?_, fun r hr => ?_⟩
  · unfold lensKill
    dsimp only
    rw [hrun1, ok_bind]
    exact hrun2
  · refine h.remove hls (fun r hr => (hp.off_lt hi hr).1) (fun r hr => ?_) fun r hr => ?_
    · rw [(hlink2 r hr).2, hprev1, (hlink1 r hr).1]
    · rw [(hlink2 r hr).1, (hlink1 r hr).2]
  · have hr' : r ∈ ls := hls ▸ mem_of_mem_remove hr
    exact ho.lensAt hp hi hr' (h.lensAt r hr')

end Kill

end Optics.LensList
