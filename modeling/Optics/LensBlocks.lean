import Optics.Lenses
import Optics.AllocatorInv
import Mathlib.Data.List.TakeDrop

/-! # Lenses as blocks

A `Lens` is what the block of a lens records and never changes: where it lies, how long its data is
and what it is called. `LensAt` says that memory records it; that depends on the header in front of
the links and on the name only (`LensAt.congr`), so that the links and the data are free to change.

* `lensAlloc_spec`: a lens that is allocated is recorded, unlinked, and all its own.
* `lensTypedAlloc_spec`: so is one of any type.
* `lensPtr_live`: a lens whose block is held is found. -/

namespace Optics.LensBlocks

open Optics.Base Optics.Lib.Bytes Optics.Lib.Tiling
open Optics.Regions Optics.Allocator Optics.AllocatorInv Optics.Lenses

/-- What the block of a lens records. -/
@[ext] structure Lens where
  off : ℕ
  dataLen : ℕ
  name : CStr

/-- The length of the block. -/
def Lens.total (l : Lens) : ℕ := sizeofLens + (l.name.val.length + 1) + l.dataLen

/-- The block. -/
def Lens.block (l : Lens) : Block := (l.off, l.total)

@[simp] theorem Lens.block_fst (l : Lens) : l.block.1 = l.off := rfl
@[simp] theorem Lens.block_snd (l : Lens) : l.block.2 = l.total := rfl

/-- Memory records the lens. -/
structure LensAt (m : Mem) (l : Lens) : Prop where
  off : lensOff m l.off = l.off
  len : lensLen m l.off = l.dataLen
  nameLen : nameLen m l.off = l.name.val.length + 1
  name : IsStr m (l.off + sizeofLens + l.dataLen) l.name.val

/-- The two memories agree on the blocks, at the lengths they are rounded up to. -/
def Agree (m m' : Mem) (bs : List Block) : Prop :=
  ∀ b ∈ bs, ∀ x, Covers (b.1, roundLen b.2) x → m' x = m x

theorem Agree.refl (m : Mem) (bs : List Block) : Agree m m bs := fun _ _ _ _ => rfl

theorem Agree.trans {m m' m'' : Mem} {bs : List Block} (h : Agree m m' bs) (h' : Agree m' m'' bs) :
    Agree m m'' bs := fun b hb x hx => (h' b hb x hx).trans (h b hb x hx)

theorem Agree.subset {m m' : Mem} {bs bs' : List Block} (h : Agree m m' bs) (hs : bs' ⊆ bs) :
    Agree m m' bs' := fun b hb => h b (hs hb)

theorem agree_of_sameOff {lo : ℕ} {s : Arena} {live : List Block}
    {A F : Fin allocClasses → List ℕ} {b : Block} (h : Inv lo s (b :: live) A F) {m m' : Mem}
    (hm : SameOff m m' b.1 (roundLen b.2)) : Agree m m' live := by
  intro b' hb' x hx
  exact hm x fun hx' => h.live_disjoint (List.Perm.refl _) hb' x hx' hx

/-! ### Reading a lens -/

section Reading
variable {m m' : Mem} {l : Lens}

/-- Memory that agrees in front of the links and behind the data records the same lens. -/
theorem LensAt.congr (h : LensAt m l) (hm : ∀ x, l.off ≤ x → x < l.off + l.total →
    (x < l.off + 24 ∨ l.off + sizeofLens + l.dataLen ≤ x) → m' x = m x) : LensAt m' l := by
  have ht : l.total = sizeofLens + (l.name.val.length + 1) + l.dataLen := rfl
  have hs : sizeofLens = 64 := rfl
  refine ⟨?_, ?_, ?_, h.name.congr fun b h1 h2 => hm b (by omega) (by omega) (Or.inr h1)⟩
  · exact (load_congr fun b h1 h2 => hm b (by omega) (by omega) (Or.inl (by omega))).trans h.off
  · exact (load_congr fun b h1 h2 => hm b (by omega) (by omega) (Or.inl (by omega))).trans h.len
  · exact (load_congr fun b h1 h2 => hm b (by omega) (by omega) (Or.inl (by omega))).trans
      h.nameLen

theorem LensAt.of_agree (h : LensAt m l) {bs : List Block} (hbs : l.block ∈ bs)
    (hlen : l.total ≤ allocMaxLen) (hm : Agree m m' bs) : LensAt m' l := by
  have hr : l.total ≤ roundLen l.total := le_roundLen hlen
  refine h.congr fun x h1 h2 _ => hm _ hbs x ⟨h1, ?_⟩
  simp only [Lens.block_fst, Lens.block_snd]
  omega

theorem LensAt.total_eq (h : LensAt m l) (hlen : l.total ≤ allocMaxLen) :
    lensTotalLen m l.off = l.total := by
  unfold lensTotalLen
  rw [h.nameLen, h.len]
  exact w64_eq (lt_of_le_of_lt hlen (by decide))

theorem LensAt.name_eq (h : LensAt m l) (hlen : l.name.val.length ≤ opticsNameMaxLen) :
    lensName m l.off = l.name := by
  refine Subtype.ext ?_
  show readStr m 1024 (lensNamePtr m l.off) = l.name.val
  unfold lensNamePtr
  rw [h.len, h.name.readStr l.name.property]
  exact List.take_of_length_le (hlen.trans (by decide))

/-- **A lens whose block is held** is found at its offset. -/
theorem lensPtr_live {lo : ℕ} {s : Arena} {live : List Block} {A F : Fin allocClasses → List ℕ}
    (hi : Inv lo s live A F) (hl : l.block ∈ live) (h : LensAt s.mem l) :
    lensPtr s l.off = some l.off := by
  have hlen := hi.live_len _ hl
  have hr : l.total ≤ roundLen l.total := le_roundLen hlen
  have h1 : regionPtr s.region l.off sizeofLens = some l.off := by
    refine hi.ptr hl (Nat.le_trans ?_ hr)
    unfold Lens.total
    omega
  unfold lensPtr
  rw [h1]
  dsimp only
  rw [h.total_eq hlen]
  exact hi.ptr hl hr

end Reading

/-! ### Making a lens -/

/-- An arena in which the lens has been made: recorded, not linked, its block held besides the
others. -/
structure Made (lo : ℕ) (s : Arena) (live : List Block) (A F : Fin allocClasses → List ℕ)
    (s' : Arena) (l : Lens) (A' F' : Fin allocClasses → List ℕ) : Prop where
  inv : Inv lo s' (l.block :: live) A' F'
  took : Took s.region A F l.total l.off s'.region A' F'
  frame : Agree s.mem s'.mem live
  lensAt : LensAt s'.mem l
  prev : lensPrev s'.mem l.off = 0

section Making
variable {lo : ℕ} {s s' : Arena} {live : List Block} {A F A' F' : Fin allocClasses → List ℕ}

theorem Made.data {l : Lens} (h : Made lo s live A F s' l A' F') {m : Mem}
    (hm : SameOff s'.mem m (l.off + sizeofLens) l.dataLen) :
    Made lo s live A F (s'.setMem m) l A' F' := by
  have hlen := h.inv.live_len _ List.mem_cons_self
  have hr : l.total ≤ roundLen l.total := le_roundLen hlen
  have ht : l.total = sizeofLens + (l.name.val.length + 1) + l.dataLen := rfl
  have hs : sizeofLens = 64 := rfl
  have hm' : SameOff s'.mem m l.off (roundLen l.total) := hm.mono (by omega) (by omega)
  refine ⟨h.inv.write List.mem_cons_self hm', h.took, h.frame.trans (agree_of_sameOff h.inv hm'),
    h.lensAt.congr fun x h1 h2 h3 => hm x (by omega), ?_⟩
  exact (load_of_sameOff hm (Or.inl (by omega))).trans h.prev

/-- The stores of `lens_alloc` into the header. -/
def headerMem (m : Mem) (off len nameLen : ℕ) (type : LensType) : Mem :=
  store64 (store64 (store m' 4 (off + 40) type.code) (off + 8) len) (off + 16) nameLen
where m' := store64 m off off

theorem headerMem_sameOff (m : Mem) (off len nameLen : ℕ) (type : LensType) :
    SameOff m (headerMem m off len nameLen type) off sizeofLens := by
  have hs : sizeofLens = 64 := rfl
  have h1 : SameOff m (headerMem.m' m off) off sizeofLens :=
    (sameOff_store _ _ _ _).mono le_rfl (by omega)
  have h2 := h1.trans ((sameOff_store _ 4 (off + 40) type.code).mono (by omega) (by omega))
  have h3 := h2.trans ((sameOff_store _ 8 (off + 8) len).mono (by omega) (by omega))
  exact h3.trans ((sameOff_store _ 8 (off + 16) nameLen).mono (by omega) (by omega))

theorem headerMem_fields (m : Mem) (off len nameLen : ℕ) (type : LensType) (hoff : off < 2 ^ 64)
    (hlen : len < 2 ^ 64) (hname : nameLen < 2 ^ 64) :
    let m' := headerMem m off len nameLen type
    lensOff m' off = off ∧ lensLen m' off = len ∧ Lenses.nameLen m' off = nameLen ∧
      lensPrev m' off = lensPrev m off ∧ lensType m' off = type.code := by
  have d4 : ∀ {k b : ℕ} (m : Mem), b + k ≤ off + 16 ∨ off + 16 + 8 ≤ b →
      load (store64 m (off + 16) nameLen) k b = load m k b :=
    fun m h => load_of_sameOff (sameOff_store _ _ _ _) h
  have d3 : ∀ {k b : ℕ} (m : Mem), b + k ≤ off + 8 ∨ off + 8 + 8 ≤ b →
      load (store64 m (off + 8) len) k b = load m k b :=
    fun m h => load_of_sameOff (sameOff_store _ _ _ _) h
  have d2 : ∀ {k b : ℕ} (m : Mem), b + k ≤ off + 40 ∨ off + 40 + 4 ≤ b →
      load (store m 4 (off + 40) type.code) k b = load m k b :=
    fun m h => load_of_sameOff (sameOff_store _ _ _ _) h
  have d1 : ∀ {k b : ℕ} (m : Mem), b + k ≤ off ∨ off + 8 ≤ b →
      load (store64 m off off) k b = load m k b :=
    fun m h => load_of_sameOff (sameOff_store _ _ _ _) h
  refine ⟨?_, ?_, ?_, ?_, ?_⟩ <;> unfold headerMem headerMem.m'
  · unfold lensOff
    rw [load64, d4 _ (by omega), d3 _ (by omega), d2 _ (by omega)]
    exact load64_store64 hoff
  · unfold lensLen
    rw [load64, d4 _ (by omega)]
    exact load64_store64 hlen
  · exact load64_store64 hname
  · unfold lensPrev
    rw [load64, load64, d4 _ (by omega), d3 _ (by omega), d2 _ (by omega), d1 _ (by omega)]
  · unfold lensType
    rw [d4 _ (by omega), d3 _ (by omega), load_store]
    cases type <;> rfl

/-- Why an allocation of a lens can fail. -/
def Refused (env : GrowEnv) (s : Arena) (len : ℕ) (name : CStr) : Prop :=
  name.val.length + 1 = opticsNameMaxLen ∨
    Exhausted env s (sizeofLens + (name.strnlen opticsNameMaxLen + 1) + len)

instance (env : GrowEnv) (s : Arena) (len : ℕ) (name : CStr) :
    Decidable (Refused env s len name) := by
  unfold Refused; infer_instance

/-- The lens `lens_alloc` makes. -/
def newLens (off len : ℕ) (name : CStr) : Lens := ⟨off, len, name.take opticsNameMaxLen⟩

theorem newLens_total (off len : ℕ) (name : CStr) :
    (newLens off len name).total = sizeofLens + (name.strnlen opticsNameMaxLen + 1) + len := by
  unfold Lens.total newLens CStr.strnlen
  simp [Nat.min_comm]

/-- The memory `lens_alloc` leaves: the header, and the name behind the data. -/
def lensMem (m : Mem) (type : LensType) (l : Lens) : Mem :=
  write (headerMem m l.off l.dataLen (l.name.val.length + 1) type) (l.off + sizeofLens + l.dataLen)
    l.name.val

section Memory
variable (m : Mem) (type : LensType) (l : Lens)

theorem lensMem_sameOff : SameOff m (lensMem m type l) l.off l.total := by
  have ht : l.total = sizeofLens + (l.name.val.length + 1) + l.dataLen := rfl
  have hheader := headerMem_sameOff m l.off l.dataLen (l.name.val.length + 1) type
  exact (hheader.mono le_rfl (by omega)).trans ((sameOff_write _ _ _).mono (by omega) (by omega))

/-- The name is written behind the data, so the header keeps what it holds. -/
theorem load_lensMem {k b : ℕ} (hb : b + k ≤ l.off + sizeofLens) :
    load (lensMem m type l) k b =
      load (headerMem m l.off l.dataLen (l.name.val.length + 1) type) k b :=
  load_of_sameOff (sameOff_write _ _ _) (Or.inl (by omega))

variable {m l}

/-- **The stores of `lens_alloc`** record the lens in a block that has been cleared. -/
theorem lensMem_lensAt (hword : l.off + l.total < 2 ^ 64)
    (hzero : ∀ x, Covers (l.off, l.total) x → m x = 0) : LensAt (lensMem m type l) l ∧
      lensPrev (lensMem m type l) l.off = 0 ∧ lensType (lensMem m type l) l.off = type.code := by
  have ht : l.total = sizeofLens + (l.name.val.length + 1) + l.dataLen := rfl
  have hs : sizeofLens = 64 := rfl
  obtain ⟨hoff, hlen, hnameLen, hprev, htype⟩ := headerMem_fields m l.off l.dataLen
    (l.name.val.length + 1) type (by omega) (by omega) (by omega)
  refine ⟨⟨?_, ?_, ?_, fun i hi => ?_, ?_⟩, ?_, ?_⟩
  · exact (load_lensMem m type l (by omega)).trans hoff
  · exact (load_lensMem m type l (by omega)).trans hlen
  · exact (load_lensMem m type l (by omega)).trans hnameLen
  · exact (write_apply (by omega) (by omega)).trans (by rw [Nat.add_sub_cancel_left])
  · -- the zero behind the name is the one of the cleared block
    refine Eq.trans (sameOff_write _ _ _ _ (by omega)) ?_
    refine Eq.trans (headerMem_sameOff m l.off l.dataLen _ type _ (by omega)) (hzero _ ⟨?_, ?_⟩)
    · dsimp only
      omega
    · dsimp only
      omega
  · refine ((load_lensMem m type l (by omega)).trans hprev).trans
      (load_zero fun b h1 h2 => hzero b ⟨?_, ?_⟩)
    · dsimp only
      omega
    · dsimp only
      omega
  · exact (load_lensMem m type l (by omega)).trans htype

end Memory

theorem strnlen_max_iff (name : CStr) : name.strnlen opticsNameMaxLen + 1 = opticsNameMaxLen ↔
    name.val.length + 1 = opticsNameMaxLen := by
  unfold CStr.strnlen opticsNameMaxLen
  omega

theorem newLens_name (off len : ℕ) (name : CStr) : (newLens off len name).name.val =
      name.val.take (name.strnlen opticsNameMaxLen) ∧
    (newLens off len name).name.val.length = name.strnlen opticsNameMaxLen := by
  have htake : (newLens off len name).name.val = name.val.take (name.strnlen opticsNameMaxLen) := by
    unfold CStr.strnlen newLens
    rw [CStr.take_val, List.take_eq_take_iff]
    omega
  refine ⟨htake, ?_⟩
  rw [htake, List.length_take]
  unfold CStr.strnlen
  omega

theorem lensAlloc_stores (m : Mem) (type : LensType) (off len : ℕ) (name : CStr)
    (hoff : off < 2 ^ 64) (hlen : len < 2 ^ 64) :
    let m' := headerMem m off len (name.strnlen opticsNameMaxLen + 1) type
    write m' (lensNamePtr m' off) (name.val.take (name.strnlen opticsNameMaxLen + 1 - 1)) =
      lensMem m type (newLens off len name) := by
  obtain ⟨htake, hlenname⟩ := newLens_name off len name
  have hle : name.strnlen opticsNameMaxLen ≤ 256 := Nat.min_le_right ..
  obtain ⟨-, hlens, -⟩ := headerMem_fields m off len (name.strnlen opticsNameMaxLen + 1) type hoff
    hlen (by omega)
  unfold lensMem lensNamePtr
  dsimp only
  rw [hlens, Nat.add_sub_cancel, hlenname, htake]
  rfl

/-- **What `lens_alloc` does.** -/
theorem lensAlloc_spec (h : Inv lo s live A F) (env : GrowEnv) (type : LensType) (len : ℕ)
    (hlen : len ≤ sizeofLensDist) (name : CStr) :
    ∃ r s', lensAlloc env s type len name = .ok (r, s') ∧
      ((Refused env s len name ∧ r = none ∧ NotAllocated lo s live A F s') ∨
        (¬ Refused env s len name ∧ ∃ off A' F', r = some off ∧ lensType s'.mem off = type.code ∧
          Made lo s live A F s' (newLens off len name) A' F')) := by
  have hle : name.strnlen opticsNameMaxLen ≤ 256 := Nat.min_le_right ..
  have hd : sizeofLensDist = 3248 := rfl
  have hs : sizeofLens = 64 := rfl
  unfold lensAlloc
  dsimp only
  by_cases hname : name.val.length + 1 = opticsNameMaxLen
  · rw [if_pos ((strnlen_max_iff name).mpr hname)]
    exact ⟨none, s, rfl, Or.inl ⟨Or.inl hname, rfl, h, rfl, rfl, rfl⟩⟩
  rw [if_neg (fun hc => hname ((strnlen_max_iff name).mp hc))]
  have hmax : sizeofLens + (name.strnlen opticsNameMaxLen + 1) + len ≤ allocMaxLen := by
    unfold allocMaxLen
    omega
  obtain ⟨off, s1, hrun, hres⟩ := allocAlloc_spec h env hmax
  rw [hrun, ok_bind]
  rcases hres with ⟨hex, rfl, hn⟩ | ⟨hex, hoff, A', F', ha⟩
  · exact ⟨none, s1, if_pos rfl, Or.inl ⟨Or.inr hex, rfl, hn⟩⟩
  dsimp only
  have hr := le_roundLen hmax
  rw [if_neg hoff, ha.inv.ptr List.mem_cons_self hr]
  dsimp only
  -- the block of the lens is the one that has been allocated
  rw [← newLens_total off len name] at ha hr
  have hin := ha.inv.live_inside List.mem_cons_self
  have hpos := ha.inv.owner.pos_lt
  dsimp only at hin
  have hword : off < 2 ^ 64 := by omega
  have hm : SameOff s1.mem (lensMem s1.mem type (newLens off len name)) off
      (roundLen (newLens off len name).total) :=
    (lensMem_sameOff s1.mem type (newLens off len name)).mono le_rfl (Nat.add_le_add_left hr off)
  obtain ⟨hat, hprev, htype⟩ := lensMem_lensAt (m := s1.mem) type (l := newLens off len name)
    (lt_of_le_of_lt (Nat.add_le_add_left hr off) (by omega))
    (fun x hx => ha.zero x ⟨hx.1, hx.2.trans_le (Nat.add_le_add_left hr off)⟩)
  refine ⟨some off, s1.setMem (lensMem s1.mem type (newLens off len name)), ?_,
    Or.inr ⟨fun hc => hc.elim hname hex, off, A', F', rfl, htype, ?_⟩⟩
  · rw [← lensAlloc_stores s1.mem type off len name hword (by omega)]
    rfl
  · exact ⟨ha.inv.write List.mem_cons_self hm, ha.took,
      Agree.trans ha.frame (agree_of_sameOff ha.inv hm), hat, hprev⟩

theorem storeWords_sameOff : ∀ (vs : List ℕ) (m : Mem) (a : ℕ),
    SameOff m (storeWords m a vs) a (8 * vs.length)
  | [], m, a => sameOff_refl _ _ _
  | v :: vs, m, a => by
    have ih := storeWords_sameOff vs (store64 m a v) (a + 8)
    rw [List.length_cons]
    exact ((sameOff_store _ 8 a v).mono le_rfl (by omega)).trans (ih.mono (by omega) (by omega))

theorem lensSubPtr_some {m : Mem} {lens : ℕ} {type : LensType} (h : lensType m lens = type.code) :
    lensSubPtr m lens type = some (lens + sizeofLens) := if_neg (fun hc => hc h)

/-- Why an allocation of a lens of some type can fail. -/
def RefusedArgs (env : GrowEnv) (s : Arena) (name : CStr) (args : LensArgs) : Prop :=
  args.ok = false ∨ Refused env s args.dataLen name

instance (env : GrowEnv) (s : Arena) (name : CStr) (args : LensArgs) :
    Decidable (RefusedArgs env s name args) := by
  unfold RefusedArgs; infer_instance

/-- What an allocator of lenses returns: nothing, with nothing changed, or a lens of its own. -/
def TypedResult (lo : ℕ) (env : GrowEnv) (s : Arena) (live : List Block)
    (A F : Fin allocClasses → List ℕ) (name : CStr) (args : LensArgs) (r : Option ℕ)
    (s' : Arena) : Prop :=
  (RefusedArgs env s name args ∧ r = none ∧ NotAllocated lo s live A F s') ∨
    (¬ RefusedArgs env s name args ∧ ∃ off A' F', r = some off ∧
      Made lo s live A F s' (newLens off args.dataLen name) A' F')

theorem typedResult_plain {name : CStr} {env : GrowEnv} {r : Option ℕ} {args : LensArgs}
    {type : LensType} (hok : args.ok = true)
    (h : (Refused env s args.dataLen name ∧ r = none ∧ NotAllocated lo s live A F s') ∨
        (¬ Refused env s args.dataLen name ∧ ∃ off A' F', r = some off ∧
          lensType s'.mem off = type.code ∧
          Made lo s live A F s' (newLens off args.dataLen name) A' F')) :
    TypedResult lo env s live A F name args r s' := by
  rcases h with ⟨hr, rfl, hn⟩ | ⟨hr, off, A', F', rfl, -, hm⟩
  · exact Or.inl ⟨Or.inr hr, rfl, hn⟩
  · refine Or.inr ⟨?_, off, A', F', rfl, hm⟩
    rintro (hc | hc)
    · rw [hok] at hc; cases hc
    · exact hr hc

/-- **What the allocators of the types do.** -/
theorem lensTypedAlloc_spec (h : Inv lo s live A F) (env : GrowEnv) (name : CStr)
    (args : LensArgs) : ∃ r s', lensTypedAlloc env s name args = .ok (r, s') ∧
      TypedResult lo env s live A F name args r s' := by
  cases args with
  | counter =>
    obtain ⟨r, s', hrun, hres⟩ := lensAlloc_spec h env .counter (2 * 8) (by decide) name
    exact ⟨r, s', hrun, typedResult_plain rfl hres⟩
  | gauge =>
    obtain ⟨r, s', hrun, hres⟩ := lensAlloc_spec h env .gauge 8 (by decide) name
    exact ⟨r, s', hrun, typedResult_plain rfl hres⟩
  | dist =>
    obtain ⟨r, s', hrun, hres⟩ := lensAlloc_spec h env .dist sizeofLensDist le_rfl name
    exact ⟨r, s', hrun, typedResult_plain rfl hres⟩
  | histo buckets =>
    unfold lensTypedAlloc lensHistoAlloc
    dsimp only
    rcases hok : histoBucketsOk buckets with _ | _
    · exact ⟨none, s, rfl, Or.inl ⟨Or.inl hok, rfl, h, rfl, rfl, rfl⟩⟩
    obtain ⟨r, s', hrun, hres⟩ :=
      lensAlloc_spec h env .histo sizeofLensHisto (by decide) name
    rw [if_neg (by simp), hrun, ok_bind]
    rcases hres with ⟨hr, rfl, hn⟩ | ⟨hr, off, A', F', rfl, ht, hm⟩
    · exact ⟨none, s', rfl, Or.inl ⟨Or.inr hr, rfl, hn⟩⟩
    dsimp only
    rw [lensSubPtr_some ht]
    refine ⟨some off, _, rfl, Or.inr ⟨?_, off, A', F', rfl, hm.data ?_⟩⟩
    · rintro (hc | hc)
      · cases hok.symm.trans hc
      · exact hr hc
    · show SameOff s'.mem _ (off + sizeofLens) 240
      have hb : buckets.length ≤ 9 := by
        unfold histoBucketsOk at hok
        simp only [Bool.and_eq_true, decide_eq_true_eq] at hok
        exact hok.1.2
      rw [show 2 * sizeofLensHistoEpoch = 160 from rfl]
      exact ((sameOff_store _ 8 _ _).mono (by omega) (by unfold opticsHistoBucketsMax; omega)).trans
        ((storeWords_sameOff buckets _ _).mono (by omega) (by omega))
  | quantile t e a =>
    unfold lensTypedAlloc lensQuantileAlloc
    dsimp only
    obtain ⟨r, s', hrun, hres⟩ :=
      lensAlloc_spec h env .quantile sizeofLensQuantile (by decide) name
    rw [hrun, ok_bind]
    rcases hres with ⟨hr, rfl, hn⟩ | ⟨hr, off, A', F', rfl, ht, hm⟩
    · exact ⟨none, s', rfl, Or.inl ⟨Or.inr hr, rfl, hn⟩⟩
    dsimp only
    rw [lensSubPtr_some ht]
    refine ⟨some off, _, rfl, Or.inr ⟨?_, off, A', F', rfl, hm.data ?_⟩⟩
    · rintro (hc | hc)
      · cases hc
      · exact hr hc
    · show SameOff s'.mem _ (off + sizeofLens) 48
      exact (storeWords_sameOff [t.toNat, e.toNat, a.toNat] _ _).mono le_rfl (by simp)

end Making

end Optics.LensBlocks
