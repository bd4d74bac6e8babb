import Optics.RegistryWear

/-! # Names

A name that is accepted should be found until its lens is freed, read back as it is, and leave every
other name free to be registered; and if a name is too long, so should every longer one be
(`NameLaw`). `nameLaw_iff`: this holds of the names of up to 254 bytes and of those of 256. A name of
255 bytes is refused though one of 256 is not, and of a longer name the first 256 bytes are
registered in its place. -/

namespace Optics.RegistryNames

open Optics.Base Optics.Lib.Bytes Optics.Lib.Runs
open Optics.Regions Optics.Allocator Optics.AllocatorInv
open Optics.AllocatorRuns (blockBase)
open Optics.Lenses Optics.LensBlocks Optics.LensList Optics.Registry Optics.RegistryInv
open Optics.RegistryOps Optics.RegistryRuns Optics.RegistryWear
open Optics.Utils.Htables Optics.Utils.HtableMap Optics.Utils.HtableGrowth

/-! ### The law -/

/-- A step that does not free the lens. -/
def Keeping (lens : ℕ) (s s' : State) : Prop := Step s s' ∧ lens ∈ s'.regs

/-- A lens that is registered under the name is found by it, and has it, until it is freed. -/
def RoundTrips (name : CStr) : Prop :=
  ∀ s env args lens o, Reachable Start Step s →
    opticsTypedAlloc env s.optics name args = .ok (some lens, o) →
    ∀ s', Relation.ReflTransGen (Keeping lens) ⟨o, lens :: s.regs⟩ s' →
      (∃ o', opticsLensGet s'.optics name = .ok (some lens, o')) ∧
        lensName s'.optics.arena.mem lens = name

/-- No registry accepts the name, for its length. -/
def Rejected (name : CStr) : Prop :=
  ∀ s env args, Reachable Start Step s →
    ∃ o, opticsTypedAlloc env s.optics name args = .ok (none, o)

/-- The names of the lenses that are registered. -/
def names (s : State) : List CStr := s.regs.map (lensName s.optics.arena.mem)

/-- Nothing else stands in the way of a lens of the name: the arguments are valid, a block can be had,
and the insertion in the table ends because no two hashes are the same modulo some power of two. -/
structure Able (s : State) (env : GrowEnv) (args : LensArgs) (name : CStr) : Prop where
  accepted : args.ok = true
  block : ¬ Exhausted env s.optics.arena
    (sizeofLens + (name.strnlen opticsNameMaxLen + 1) + args.dataLen)
  cap : s.optics.keys.cap < 2 ^ 63
  apart : ∃ n < 64, Apart htableHash n (insert (name.take opticsNameMaxLen) (names s).toFinset)

/-- The name can be registered wherever it is not, unless it is rejected for its length. -/
def Registers (name : CStr) : Prop :=
  ∀ s env args, Reachable Start Step s → Able s env args name → ¬ Rejected name → name ∉ names s →
    ∃ lens o, opticsTypedAlloc env s.optics name args = .ok (some lens, o)

/-- If the name is too long, so is every longer one. -/
def LimitsLength (name : CStr) : Prop :=
  Rejected name → ∀ name', name.val.length ≤ name'.val.length → Rejected name'

/-- **What the registry owes a name.** -/
structure NameLaw (name : CStr) : Prop where
  roundTrips : RoundTrips name
  registers : Registers name
  limit : LimitsLength name

/-! ### Which names are rejected -/

theorem slabLen_le (len : ℕ) : slabLen len ≤ 65536 := by
  have h : ∀ c : Fin allocClasses, classLen c * slabNodes (classLen c) ≤ 65536 := by decide
  exact h (classOf len)

/-- A registry just created accepts every name but those of 255 bytes. -/
theorem register_fresh (name : CStr) (hname : name.val.length ≠ 255) :
    ∃ off o A F, opticsTypedAlloc noGrow fresh.optics name .gauge = .ok (some off, o) ∧
      Step fresh ⟨o, [off]⟩ ∧ Inv o [newLens off LensArgs.gauge.dataLen name] (fun _ => []) [] A F ∧
      (∀ len, (newLens off LensArgs.gauge.dataLen name).total = len → 0 < avail A F (classOf len)) ∧
      htablePut htableHash Htable.zero (name.take opticsNameMaxLen) off =
        .ok (o.keys, ⟨true, 0⟩) := by
  obtain ⟨_, _, _, _, o, hc, ho⟩ := start_fresh
  have hi : Inv fresh.optics [] (fun _ => []) [] (fun _ => []) (fun _ => []) := by
    rw [ho]
    exact opticsCreateAt_inv hc
  have hnot : ¬ RefusedArgs noGrow fresh.optics.arena name .gauge := by
    rintro (hr | hr | hr)
    · cases hr
    · exact hname (by unfold opticsNameMaxLen at hr; omega)
    · refine hr.2 (Or.inl ?_)
      have h1 := slabLen_le (sizeofLens + (name.strnlen opticsNameMaxLen + 1) + LensArgs.gauge.dataLen)
      have h2 : fresh.optics.arena.region.pos = 704 := by decide
      have h3 : fresh.optics.arena.region.vmaLen = 1048576 := rfl
      omega
  obtain ⟨off, o1, A1, F1, hrun, hstep, hi1, -, htook, hput⟩ := register_empty hi rfl hnot
  refine ⟨off, o1, A1, F1, hrun, hstep, hi1, fun len hlen => ?_, hput⟩
  subst hlen
  have hslab : 2 < slabNodes (roundLen (newLens off LensArgs.gauge.dataLen name).total) :=
    (slab_fits _).2
  rcases htook.served with ⟨h1, -⟩ | ⟨-, -, h3, -⟩
  · exact absurd h1 (Nat.succ_ne_zero _)
  · omega

/-- **Exactly the names of 255 bytes are rejected.** -/
theorem rejected_iff (name : CStr) : Rejected name ↔ name.val.length = 255 := by
  constructor
  · intro hr
    by_contra hne
    obtain ⟨off, o, A, F, hrun, -⟩ := register_fresh name hne
    obtain ⟨o', hrun'⟩ := hr fresh noGrow .gauge (Reachable.of_start start_fresh)
    cases hrun.symm.trans hrun'
  · intro hlen s env args hs
    obtain ⟨ls, D, lost, A, F, hi, hregs⟩ := exists_inv hs
    have href : RefusedArgs env s.optics.arena name args :=
      Or.inr (Or.inl (by rw [hlen]; rfl))
    obtain ⟨s1, hrun, -⟩ := (opticsTypedAlloc_spec hi env name args).refused href
    exact ⟨_, hrun⟩

theorem limitsLength_iff (name : CStr) : LimitsLength name ↔ name.val.length ≠ 255 := by
  unfold LimitsLength
  simp only [rejected_iff]
  constructor
  · intro hl hlen
    have h := hl hlen (letters 256) (by rw [hlen, letters_length]; decide)
    rw [letters_length] at h
    exact absurd h (by decide)
  · exact fun hne hlen => absurd hlen hne

/-! ### Round trips -/

theorem holds_keeping {l : Lens} {s s' : State} (h : Relation.ReflTransGen (Keeping l.off) s s')
    {ls : List Lens} (hh : Holds s ls) (hl : l ∈ ls) : ∃ ls', Holds s' ls' ∧ l ∈ ls' := by
  induction h with
  | refl => exact ⟨ls, hh, hl⟩
  | tail _ hstep ih =>
    obtain ⟨ls1, hh1, hl1⟩ := ih
    obtain ⟨ls2, hh2, hkept⟩ := holds_step hh1 hstep.1
    exact ⟨ls2, hh2, hkept l hl1 hstep.2⟩

theorem found_of_mem {s : State} {ls : List Lens} (hh : Holds s ls) {l : Lens} (hl : l ∈ ls) :
    (∃ o, opticsLensGet s.optics l.name = .ok (some l.off, o)) ∧
      lensName s.optics.arena.mem l.off = l.name := by
  obtain ⟨D, lost, A, F, hi, -⟩ := hh
  have hshort := hi.short l hl
  refine ⟨?_, (hi.linked.lensAt l hl).name_eq hshort⟩
  obtain ⟨keys, r, hget, -, hr⟩ := opticsLensGet_spec hi l.name
  rw [clip_name hshort] at hr
  rcases hr with ⟨-, hnot⟩ | ⟨l', hl', hname, rfl⟩
  · exact absurd ⟨l, hl, rfl⟩ hnot
  · rw [hi.keys.eq_of_name hl' hl hname] at hget
    exact ⟨_, hget⟩

theorem registered_of_alloc {s : State} {ls : List Lens} (hh : Holds s ls) {env : GrowEnv}
    {name : CStr} {args : LensArgs} {lens : ℕ} {o : StructOptics}
    (h : opticsTypedAlloc env s.optics name args = .ok (some lens, o)) :
    ∃ l, l.off = lens ∧ l.name = name.take opticsNameMaxLen ∧ Holds ⟨o, lens :: s.regs⟩ (l :: ls) := by
  obtain ⟨D, lost, A, F, hi, hregs⟩ := hh
  obtain ⟨hr, ht, hf⟩ := opticsTypedAlloc_spec hi env name args
  by_cases href : RefusedArgs env s.optics.arena name args
  · obtain ⟨s1, hrun, -⟩ := hr href
    cases h.symm.trans hrun
  by_cases htaken : Taken ls (name.take opticsNameMaxLen)
  · obtain ⟨l, hl, hname⟩ := htaken
    obtain ⟨s1, A', F', hrun, -⟩ := ht href l hl hname
    cases h.symm.trans hrun
  · rcases hf href htaken with ⟨hdiv, -⟩ | ⟨off, o', A', F', hrun, hi', -⟩
    · cases h.symm.trans hdiv
    · cases h.symm.trans hrun
      exact ⟨newLens lens args.dataLen name, rfl, rfl, D, lost, A', F', hi',
        congrArg (List.cons lens) hregs⟩

theorem take_eq_iff (name : CStr) :
    name.take opticsNameMaxLen = name ↔ name.val.length ≤ opticsNameMaxLen := by
  constructor
  · intro h
    have hlen := congrArg (fun c : CStr => c.val.length) h
    simp only [CStr.take_val, List.length_take] at hlen
    omega
  · exact CStr.take_of_length_le

theorem roundTrips_iff (name : CStr) : RoundTrips name ↔ name.val.length ≤ 256 := by
  constructor
  · intro hr
    by_contra hlong
    obtain ⟨off, o, A, F, hrun, hstep, -⟩ := register_fresh name (by omega)
    obtain ⟨l, rfl, hname, hh⟩ := registered_of_alloc (s := fresh) (holds_start start_fresh) hrun
    have h1 := (hr fresh noGrow .gauge _ o (Reachable.of_start start_fresh) hrun _ .refl).2
    have h2 := (found_of_mem hh List.mem_cons_self).2
    exact hlong ((take_eq_iff name).mp (hname.symm.trans (h2.symm.trans h1)))
  · intro hlen s env args lens o hs hrun s' hrun'
    obtain ⟨ls, hh⟩ := exists_inv hs
    obtain ⟨l, rfl, hname, hh1⟩ := registered_of_alloc hh hrun
    obtain ⟨ls', hh', hl'⟩ := holds_keeping hrun' hh1 List.mem_cons_self
    have hfound := found_of_mem hh' hl'
    rw [hname, (take_eq_iff name).mpr hlen] at hfound
    exact hfound

/-! ### Registering other names -/

theorem apart_of_forall_eq {S : Finset CStr} {k : CStr} (h : ∀ k' ∈ S, k' = k) :
    Apart htableHash 0 S := fun k1 h1 k2 h2 _ => (h k1 h1).trans (h k2 h2).symm

/-- **An allocation that nothing stands in the way of** returns a lens. -/
theorem registers_of_able {s : State} {ls : List Lens} (hh : Holds s ls) {env : GrowEnv}
    {name : CStr} {args : LensArgs} (ha : Able s env args name) (hlen : name.val.length ≠ 255)
    (hnew : name.take opticsNameMaxLen ∉ names s) :
    ∃ lens o, opticsTypedAlloc env s.optics name args = .ok (some lens, o) := by
  have hnames : names s = ls.map Lens.name := hh.names
  rw [hnames] at hnew
  obtain ⟨D, lost, A, F, hi, hregs⟩ := hh
  have hnot : ¬ RefusedArgs env s.optics.arena name args := by
    rintro (hc | hc | hc)
    · rw [ha.accepted] at hc
      cases hc
    · exact hlen (by unfold opticsNameMaxLen at hc; omega)
    · exact ha.block hc
  have htaken : ¬ Taken ls (name.take opticsNameMaxLen) := by
    rintro ⟨l, hl, hname⟩
    exact hnew (List.mem_map.mpr ⟨l, hl, hname⟩)
  rcases (opticsTypedAlloc_spec hi env name args).fresh hnot htaken with
    ⟨-, hdiv⟩ | ⟨off, o', -, -, hrun, -⟩
  · obtain ⟨M, hM, hkeys⟩ := hi.keys
    obtain ⟨n, hn, hA⟩ := ha.apart
    rw [hnames, ← keys_eq_names hkeys] at hA
    have hclip : clip (name.take opticsNameMaxLen) = name.take opticsNameMaxLen :=
      clip_name (List.length_take_le _ _)
    refine absurd (fun v => ?_) hdiv
    obtain ⟨ht', r, hput, -⟩ := htablePut_returns hM hn ha.cap (by rwa [hclip])
    exact ⟨_, hput⟩
  · exact ⟨off, o', hrun⟩

theorem registers_iff (name : CStr) : Registers name ↔ name.val.length ≤ 256 := by
  constructor
  · intro hr
    by_contra hlong
    -- the first 256 bytes are registered as a name of their own
    set cut := name.take opticsNameMaxLen with hcut
    have hcutlen : cut.val.length = 256 := by
      rw [hcut, CStr.take_val, List.length_take]
      unfold opticsNameMaxLen
      omega
    have hcut2 : cut.take opticsNameMaxLen = cut := (take_eq_iff cut).mpr (by rw [hcutlen]; rfl)
    obtain ⟨off, o, A, F, hrun, hstep, hi, havail, hput⟩ :=
      register_fresh cut (by rw [hcutlen]; decide)
    have hs := (Reachable.of_start start_fresh).tail hstep
    have hh : Holds ⟨o, [off]⟩ [newLens off LensArgs.gauge.dataLen cut] := ⟨_, [], A, F, hi, rfl⟩
    have hnames : names ⟨o, [off]⟩ = [cut] := hh.names.trans (congrArg (fun c => [c]) hcut2)
    have hsame : name.strnlen opticsNameMaxLen = cut.strnlen opticsNameMaxLen := by
      unfold CStr.strnlen
      rw [hcutlen]
      unfold opticsNameMaxLen
      omega
    have hable : Able ⟨o, [off]⟩ noGrow .gauge name := by
      refine ⟨rfl, ?_, ?_, 0, by decide, ?_⟩
      · rw [hi.arena.exhausted_iff, hsame, ← newLens_total off]
        exact fun h => absurd h.1 (havail _ rfl).ne'
      · obtain ⟨ht', r, hput', hcap⟩ := @htablePut_returns htableHash 0 Htable.zero ∅
          (cut.take opticsNameMaxLen) off inv_zero (by decide) (by decide)
          (apart_of_forall_eq fun k hk => by simpa using hk)
        cases hput.symm.trans hput'
        exact lt_of_le_of_lt hcap (by decide)
      · rw [← hcut, hnames]
        exact apart_of_forall_eq fun k hk => by simpa using hk
    have hnew : name ∉ names ⟨o, [off]⟩ := by
      rw [hnames, List.mem_singleton]
      intro he
      exact hlong ((take_eq_iff name).mp he.symm)
    obtain ⟨lens, o', hok⟩ := hr _ noGrow .gauge hs hable
      (fun hc => absurd ((rejected_iff name).mp hc) (by omega)) hnew
    have href : ¬ RefusedArgs noGrow o.arena name .gauge := by
      rintro (hc | hc | hc)
      · cases hc
      · exact absurd hc (by unfold opticsNameMaxLen; omega)
      · exact hable.block hc
    obtain ⟨s1, A', F', hrun', -⟩ := (opticsTypedAlloc_spec hi noGrow name .gauge).taken href _
      List.mem_cons_self hcut2
    cases hok.symm.trans hrun'
  · intro hlen s env args hs ha hrej hnew
    obtain ⟨ls, hh⟩ := exists_inv hs
    rw [rejected_iff] at hrej
    exact registers_of_able hh ha hrej (by rwa [(take_eq_iff name).mpr hlen])

/-- **The names the registry treats as it should.** -/
theorem nameLaw_iff (name : CStr) :
    NameLaw name ↔ name.val.length ≠ 255 ∧ name.val.length ≤ 256 := by
  constructor
  · intro h
    exact ⟨(limitsLength_iff name).mp h.limit, (roundTrips_iff name).mp h.roundTrips⟩
  · rintro ⟨h1, h2⟩
    exact ⟨(roundTrips_iff name).mpr h2, (registers_iff name).mpr h2, (limitsLength_iff name).mpr h1⟩

/-- **The law fails at both ends of the limit**: 255 bytes are refused and 256 accepted, and of 257
bytes the last is lost. -/
theorem nameLaw_fails : Rejected (letters 255) ∧ ¬ Rejected (letters 256) ∧
    ¬ RoundTrips (letters 257) ∧ ¬ Registers (letters 257) := by
  refine ⟨(rejected_iff _).mpr (letters_length 255), fun h => ?_, fun h => ?_, fun h => ?_⟩
  · exact absurd ((letters_length 256).symm.trans ((rejected_iff _).mp h)) (by decide)
  · have hle := (roundTrips_iff _).mp h
    rw [letters_length] at hle
    exact absurd hle (by decide)
  · have hle := (registers_iff _).mp h
    rw [letters_length] at hle
    exact absurd hle (by decide)

end Optics.RegistryNames
