import Optics.LensWords

/-! # What a lens holds after a run

Lenses are made, looked up, used and freed in any order, with the epoch moving on in between and the
region growing or failing to (`Next`). The trace of a run keeps, of each call, which lens it made or
used.

`lens_history`: a registered lens holds the value it was made with, changed by the calls on it since
then and by nothing else, although its bytes lie between those of other lenses, of the lists of the
allocator and of the deferred frees, and were those of other lenses before. -/

namespace Optics.LensRuns

open Optics.Base Optics.Lib.Bytes Optics.Lib.Runs
open Optics.Regions Optics.Allocator Optics.Lenses Optics.LensBlocks Optics.LensSlots
open Optics.Doubles Optics.Utils.Random Optics.Utils.Formats Optics.Registry Optics.RegistryData
open Optics.LensWords
open Optics.RegistryRuns (State Start entered)

/-! ### Values of entries -/

/-- How long the data of a lens of the type is. -/
def typeLen : LensType → ℕ
  | .histo => sizeofLensHisto
  | t => slotsLen t

theorem slotsLen_le (t : LensType) : slotsLen t ≤ typeLen t := by
  cases t <;> decide

/-- The data of an entry is long enough for its type, and a histogram has no more bounds than
there is room for. -/
structure WellTyped (e : Entry) (t : LensType) : Prop where
  type : e.cell.type = t.code
  len : typeLen t ≤ 8 * e.cell.words.length
  bounds : t = .histo → e.cell.words.getD 29 0 ≤ 9

theorem dataOf_congr {t : LensType} {w w' : ℕ → ℕ} (h : ∀ i, 8 * i + 8 ≤ typeLen t → w' i = w i)
    (hb : t = .histo → w 29 ≤ 9) : dataOf w' t = dataOf w t := by
  cases t with
  | counter =>
    have hl : typeLen .counter = 16 := rfl
    exact congrArg LensData.counter (funext fun e => by rw [h e (by omega)])
  | gauge =>
    have hl : typeLen .gauge = 8 := rfl
    exact congrArg LensData.gauge (by rw [h 0 (by omega)])
  | dist =>
    have hl : typeLen .dist = 3248 := rfl
    refine congrArg LensData.dist (funext fun e => distEpochOf_congr fun j _ h2 => h j ?_)
    have he := e.isLt
    omega
  | histo =>
    have hl : typeLen .histo = 240 := rfl
    have h29 := h 29 (by omega)
    have hle := hb rfl
    have hepochs : histoEpochOf w' = histoEpochOf w := by
      funext e
      refine histoEpoch_ext fun p hp => ?_
      have hp20 := partWord_lt e p
      rw [histoEpochOf_get e w' hp, histoEpochOf_get e w hp, h _ (by omega)]
    have hbuckets : bucketsOf w' = bucketsOf w := by
      unfold bucketsOf
      rw [h29]
      refine List.map_congr_left fun i hi => ?_
      have hi := List.mem_range.mp hi
      rw [h (20 + i) (by omega)]
    show LensData.histo _ _ = LensData.histo _ _
    rw [hepochs, hbuckets]
  | quantile =>
    have hl : typeLen .quantile = 48 := rfl
    have hcount : ∀ e : Fin 2, w' (4 + e) = w (4 + e) := fun e => h _ (by omega)
    refine congrArg LensData.quantile ?_
    unfold quantileOf
    simp only [hcount, h 0 (by omega), h 1 (by omega), h 2 (by omega), h 3 (by omega)]

theorem cellAt_word {m : Mem} {lens i : ℕ} (hi : i < (cellAt m lens).words.length) :
    (cellAt m lens).words.getD i 0 = dataWord m lens i := by
  unfold cellAt at hi ⊢
  simp only [List.length_map, List.length_range] at hi
  simp [hi]

/-- **A lens that is the same entry holds the same value.** -/
theorem dataAt_of_entry {m m' : Mem} {lens : ℕ} {t : LensType} {d : LensData}
    (he : entryAt m' lens = entryAt m lens) (hw : WellTyped (entryAt m lens) t)
    (h : DataAt m lens t d) : DataAt m' lens t d := by
  obtain ⟨ht, rfl⟩ := h
  have hcell : cellAt m' lens = cellAt m lens := congrArg Entry.cell he
  have htype : lensType m' lens = lensType m lens := congrArg Cell.type hcell
  have hlen := hw.len
  have hwords : ∀ i, 8 * i + 8 ≤ typeLen t → dataWord m' lens i = dataWord m lens i := by
    intro i hi
    have h1 : i < (cellAt m lens).words.length := by
      have h2 : typeLen t ≤ 8 * (cellAt m lens).words.length := hlen
      omega
    rw [← cellAt_word h1, ← hcell]
    exact (cellAt_word (by rw [hcell]; exact h1)).symm
  refine ⟨htype.trans ht, dataOf_congr hwords fun hh => ?_⟩
  have h29 : 29 < (cellAt m lens).words.length := by
    have h2 : typeLen t ≤ 8 * (cellAt m lens).words.length := hlen
    have h3 : typeLen .histo = 240 := rfl
    rw [hh] at h2
    omega
  rw [← cellAt_word h29]
  exact hw.bounds hh

/-! ### The value a lens is made with -/

/-- What a lens holds that has just been made. -/
def initData : LensArgs → LensData
  | .counter => .counter fun _ => 0
  | .gauge => .gauge 0
  | .dist => .dist fun _ => ⟨false, 0, .fin 0, Vector.replicate opticsDistSamples (.fin 0)⟩
  | .histo buckets => .histo (fun _ => ⟨0, 0, fun _ => 0⟩) (buckets.map num)
  | .quantile t e a => .quantile ⟨punItod t, punItod e, punItod a, 0, fun _ => 0⟩

theorem buckets_length {args : LensArgs} (hok : args.ok = true) {buckets : List ℕ}
    (ha : args = .histo buckets) : buckets.length ≤ 9 := by
  subst ha
  unfold LensArgs.ok histoBucketsOk at hok
  simp only [Bool.and_eq_true, decide_eq_true_eq] at hok
  exact hok.1.2

theorem dataOf_initWord {args : LensArgs} (hok : args.ok = true) :
    dataOf (initWord args) (argsType args) = initData args := by
  cases args with
  | counter => rfl
  | gauge => rfl
  | dist =>
    refine congrArg LensData.dist (funext fun e => distEpoch_ext rfl rfl ?_ fun i hi => ?_)
    · simp [distEpochOf, initWord, punItod_zero]
    · simp [distEpochOf, initWord, punItod_zero]
  | histo buckets =>
    have hb := buckets_length hok rfl
    have hepochs : histoEpochOf (initWord (.histo buckets)) = fun _ => ⟨0, 0, fun _ => 0⟩ := by
      funext e
      refine histoEpoch_ext fun p hp => ?_
      have hlt := partWord_lt e p
      have hw : initWord (.histo buckets) (partWord e p) = 0 := by
        unfold initWord
        dsimp only
        rw [if_neg (by omega), if_neg (by omega)]
      rw [histoEpochOf_get e _ hp, hw]
      cases p <;> rfl
    have hbuckets : bucketsOf (initWord (.histo buckets)) = buckets.map num := by
      refine List.ext_getElem (by simp [bucketsOf, initWord]) fun i h1 h2 => ?_
      have hi : i < buckets.length := by simpa using h2
      have hw : initWord (.histo buckets) (20 + i) = w64 buckets[i] := by
        unfold initWord
        dsimp only
        rw [if_neg (by omega), if_pos (by omega), Nat.add_sub_cancel_left,
          List.getD_eq_getElem _ _ hi]
      simp [bucketsOf, hw]
    show LensData.histo _ _ = LensData.histo _ _
    rw [hepochs, hbuckets]
  | quantile t e a =>
    have hcount : ∀ e' : Fin 2, initWord (.quantile t e a) (4 + e') = 0 := fun e' =>
      List.getD_eq_default _ _ (by simp; omega)
    refine congrArg LensData.quantile ?_
    unfold quantileOf
    simp only [hcount]
    simp [initWord]

theorem wellTyped_init {args : LensArgs} (hok : args.ok = true) (lens : ℕ) (name : CStr) :
    WellTyped ⟨lens, name, initCell args⟩ (argsType args) := by
  refine ⟨rfl, ?_, fun hh => ?_⟩
  · unfold initCell
    simp only [List.length_map, List.length_range]
    cases args <;> simp only [argsType, LensArgs.dataLen, typeLen, slotsLen] <;> decide
  · cases args with
    | histo buckets =>
      have hb := buckets_length hok rfl
      unfold initCell
      have hlen : (LensArgs.histo buckets).dataLen = 240 := rfl
      rw [hlen]
      simpa [initWord] using hb
    | _ => exact LensType.noConfusion hh

theorem dataAt_init {m : Mem} {lens : ℕ} {args : LensArgs} (hok : args.ok = true)
    (h : cellAt m lens = initCell args) : DataAt m lens (argsType args) (initData args) := by
  have htype : lensType m lens = (argsType args).code := congrArg Cell.type h
  refine ⟨htype, ?_⟩
  rw [← dataOf_initWord hok]
  have hwt := wellTyped_init hok lens (lensName m lens)
  have hword : ∀ i, 8 * i + 8 ≤ typeLen (argsType args) → dataWord m lens i = initWord args i := by
    intro i hi
    have hlen : i < (initCell args).words.length := by
      have := hwt.len
      dsimp only at this
      omega
    rw [← cellAt_word (by rw [h]; exact hlen), h]
    unfold initCell at hlen ⊢
    simp only [List.length_map, List.length_range] at hlen
    simp [hlen]
  refine dataOf_congr hword fun hh => ?_
  cases args with
  | histo buckets => exact buckets_length hok rfl
  | _ => exact LensType.noConfusion hh

/-! ### Runs -/

section Runs
variable {σ : Type} (fpu : Fpu) (rng : Rng σ)

/-- What a step was about: a lens that was made, a call on a lens with the state of the generator
before and after it, or neither. -/
inductive Event (σ : Type) where
  | made (lens : ℕ) (args : LensArgs)
  | used (lens : ℕ) (u : Use) (e : Fin 2) (x : σ) (r : Returned) (x' : σ)
  | other

/-- One call. -/
inductive Next : State → Event σ → State → Prop
  /-- `optics_X_alloc`, which makes a lens -/
  | alloc {s : State} {env : GrowEnv} {name : CStr} {args : LensArgs} {lens : ℕ} {o : StructOptics}
      (h : opticsTypedAlloc env s.optics name args = .ok (some lens, o)) :
      Next s (.made lens args) ⟨o, lens :: s.regs⟩
  /-- `optics_X_alloc`, in vain -/
  | allocFail {s : State} {env : GrowEnv} {name : CStr} {args : LensArgs} {o : StructOptics}
      (h : opticsTypedAlloc env s.optics name args = .ok (none, o)) : Next s .other ⟨o, s.regs⟩
  /-- `optics_X_alloc_get`, which makes a lens -/
  | allocGet {s : State} {env : GrowEnv} {name : CStr} {args : LensArgs} {lens : ℕ}
      {o : StructOptics} (h : opticsTypedAllocGet env s.optics name args = .ok (some lens, o))
      (hnew : lens ∉ s.regs) : Next s (.made lens args) ⟨o, lens :: s.regs⟩
  /-- `optics_X_alloc_get`, of a lens that is registered or in vain -/
  | allocGetOld {s : State} {env : GrowEnv} {name : CStr} {args : LensArgs} {r : Option ℕ}
      {o : StructOptics} (h : opticsTypedAllocGet env s.optics name args = .ok (r, o))
      (hold : ∀ lens, r = some lens → lens ∈ s.regs) : Next s .other ⟨o, s.regs⟩
  /-- `optics_lens_get` -/
  | get {s : State} {name : CStr} {r : Option ℕ} {o : StructOptics}
      (h : opticsLensGet s.optics name = .ok (r, o)) : Next s .other ⟨o, s.regs⟩
  /-- `optics_lens_free` of a lens that is registered -/
  | free {s : State} {env : GrowEnv} {lens : ℕ} {r : Bool} {o : StructOptics} (hl : lens ∈ s.regs)
      (h : opticsLensFree env s.optics lens = .ok (r, o)) : Next s .other ⟨o, s.regs.erase lens⟩
  /-- a call on a lens that is registered -/
  | use {s : State} {lens : ℕ} {u : Use} {e : Fin 2} {x x' : σ} {r : Returned} {m : Mem}
      (hl : lens ∈ s.regs)
      (h : u.run fpu rng e x s.optics.arena.mem lens = .ok (r, m, x')) :
      Next s (.used lens u e x r x') ⟨s.optics.setArena (s.optics.arena.setMem m), s.regs⟩
  /-- `optics_epoch_inc_at`, in a process that has mapped the region as `view` -/
  | epochInc {s : State} {view : Region} {now lastInc : ℕ} {e : Fin 2} {o : StructOptics}
      (h : opticsEpochIncAt (s.optics.seenBy view) now = .ok (e, lastInc, o)) :
      Next s .other ⟨o.seenBy s.optics.arena.region, s.regs⟩

/-- A run from a registry just created, with its events, the last one first. -/
inductive Run : List (Event σ) → State → Prop
  | start {s : State} (h : Start s) : Run [] s
  | step {tr : List (Event σ)} {s s' : State} {ev : Event σ} (h : Run tr s)
      (hs : Next fpu rng s ev s') : Run (ev :: tr) s'

/-- The event is about the lens. -/
def Event.About (lens : ℕ) : Event σ → Prop
  | .made l _ => l = lens
  | .used l .. => l = lens
  | .other => False

/-- The value a lens was made with, changed by the calls on it since. -/
inductive History (lens : ℕ) : List (Event σ) → LensType → LensData → Prop
  | made {tr : List (Event σ)} (args : LensArgs) :
      History lens (.made lens args :: tr) (argsType args) (initData args)
  | used {tr : List (Event σ)} {t : LensType} {d d' : LensData} {u : Use} {e : Fin 2} {x x' : σ}
      {r : Returned} (h : History lens tr t d) (hd : u.apply fpu rng e x d = .ok (r, d', x')) :
      History lens (.used lens u e x r x' :: tr) t d'
  | skip {tr : List (Event σ)} {t : LensType} {d : LensData} {ev : Event σ}
      (h : History lens tr t d) (hev : ¬ ev.About lens) : History lens (ev :: tr) t d

/-! ### The invariant of runs -/

/-- What memory has for the lens agrees with its history. -/
def Tracked (tr : List (Event σ)) (m : Mem) (lens : ℕ) : Prop :=
  ∃ t d, WellTyped (entryAt m lens) t ∧ History fpu rng lens tr t d ∧ DataAt m lens t d

variable {fpu rng}

theorem mem_regs {s : State} {e : Entry} (he : e ∈ entries s) :
    e.handle ∈ s.regs ∧ e = entryAt s.optics.arena.mem e.handle := by
  obtain ⟨lens, hl, rfl⟩ := List.mem_map.mp he
  exact ⟨hl, rfl⟩

theorem entry_mem {s : State} {lens : ℕ} (hl : lens ∈ s.regs) :
    entryAt s.optics.arena.mem lens ∈ entries s := List.mem_map.mpr ⟨lens, hl, rfl⟩

theorem Tracked.keep {s : State} {m' : Mem} {tr : List (Event σ)} {ev : Event σ} {lens : ℕ}
    (h : ∀ l ∈ s.regs, Tracked fpu rng tr s.optics.arena.mem l)
    (he : entryAt m' lens ∈ entries s) (hev : ¬ ev.About lens) :
    Tracked fpu rng (ev :: tr) m' lens := by
  obtain ⟨hl, heq⟩ := mem_regs he
  have heq : entryAt m' lens = entryAt s.optics.arena.mem lens := heq
  obtain ⟨t, d, hw, hh, hd⟩ := h lens hl
  exact ⟨t, d, by rw [heq]; exact hw, .skip hh hev, dataAt_of_entry heq hw hd⟩

theorem Tracked.make {m : Mem} {tr : List (Event σ)} {lens : ℕ} {name : CStr} {args : LensArgs}
    (hok : args.ok = true) (he : entryAt m lens = ⟨lens, name, initCell args⟩) :
    Tracked fpu rng (.made lens args :: tr) m lens :=
  ⟨argsType args, initData args, by rw [he]; exact wellTyped_init hok _ _, .made args,
    dataAt_init hok (congrArg Entry.cell he)⟩

theorem registers_iff {refused : Prop} {name : CStr} {args : LensArgs} {found : Entry → Option ℕ}
    {es es' : List Entry} {r : Option ℕ} (h : Registers refused name args found es r es') :
    (es' = es ∧ (r = none ∨ ∃ e ∈ es, r = found e)) ∨
      ∃ off, ¬ refused ∧ r = some off ∧ (∀ e ∈ es, e.handle ≠ off) ∧
        es' = ⟨off, name.take opticsNameMaxLen, initCell args⟩ :: es := by
  cases h with
  | refused _ => exact Or.inl ⟨rfl, Or.inl rfl⟩
  | taken _ he _ => exact Or.inl ⟨rfl, Or.inr ⟨_, he, rfl⟩⟩
  | fresh h _ hoff => exact Or.inr ⟨_, h, rfl, hoff, rfl⟩

theorem args_ok {env : GrowEnv} {s : Arena} {name : CStr} {args : LensArgs}
    (h : ¬ RefusedArgs env s name args) : args.ok = true :=
  Bool.eq_true_of_not_eq_false fun hc => h (Or.inl hc)

/-- **A lens that is made** starts its history, and the others go on with theirs. -/
theorem tracked_made {s : State} {o : StructOptics} {tr : List (Event σ)} {lens : ℕ} {name : CStr}
    {args : LensArgs} (h : ∀ l ∈ s.regs, Tracked fpu rng tr s.optics.arena.mem l)
    (hok : args.ok = true) (hnew : ∀ e ∈ entries s, e.handle ≠ lens)
    (hes : entries ⟨o, lens :: s.regs⟩ = ⟨lens, name, initCell args⟩ :: entries s) :
    ∀ l ∈ lens :: s.regs, Tracked fpu rng (.made lens args :: tr) o.arena.mem l := by
  have hmap : entryAt o.arena.mem lens :: s.regs.map (entryAt o.arena.mem) =
      ⟨lens, name, initCell args⟩ :: entries s := hes
  obtain ⟨hhead, htail⟩ := List.cons.inj hmap
  intro l hl
  rcases List.mem_cons.mp hl with rfl | hl
  · exact Tracked.make hok hhead
  · have he : entryAt o.arena.mem l ∈ entries s := by
      rw [← htail]
      exact List.mem_map.mpr ⟨l, hl, rfl⟩
    exact Tracked.keep h he fun hc => hnew _ he (Eq.symm hc)

theorem WellTyped.stored {m m' : Mem} {lens : ℕ} {t : LensType} (hw : WellTyped (entryAt m lens) t)
    (hm : SameOff m m' (lens + sizeofLens) (slotsLen t))
    (he : entryAt m' lens = (entryAt m lens).stored m' lens) : WellTyped (entryAt m' lens) t := by
  unfold Entry.stored at he
  rw [if_pos (entryAt_handle m lens)] at he
  rw [he]
  refine ⟨hw.type, ?_, fun hh => ?_⟩
  · simpa using hw.len
  · have hlen := hw.len
    have hl : typeLen .histo = 240 := rfl
    have hs : slotsLen .histo = 160 := rfl
    simp only [entryAt_cell] at hlen
    rw [hh] at hlen hm
    have h29 : 29 < (cellAt m lens).words.length := by omega
    have hword : dataWord m' lens 29 = dataWord m lens 29 :=
      load_of_sameOff hm (Or.inr (by omega))
    have hb := hw.bounds hh
    simp only [entryAt_cell] at hb
    rw [cellAt_word h29] at hb
    simpa [h29, hword] using hb

/-- **A call on one lens** goes on with its history, and those of the others. -/
theorem tracked_used {s : State} {tr : List (Event σ)} (href : Refines s) {lens : ℕ} {u : Use}
    {e : Fin 2} {x x' : σ} {r : Returned} {m : Mem}
    (h : ∀ l ∈ s.regs, Tracked fpu rng tr s.optics.arena.mem l) (hl : lens ∈ s.regs)
    (hrun : u.run fpu rng e x s.optics.arena.mem lens = .ok (r, m, x')) :
    SameOff s.optics.arena.mem m (lens + sizeofLens) (lensLen s.optics.arena.mem lens) ∧
      ∀ l ∈ s.regs, Tracked fpu rng (.used lens u e x r x' :: tr) m l := by
  obtain ⟨t, d, hw, hh, hd⟩ := h lens hl
  have hsim := u.simulates fpu rng e x hd
  rw [hrun] at hsim
  rcases happ : u.apply fpu rng e x d with f | ⟨r', d', x''⟩
  · rw [happ] at hsim
    cases hsim
  rw [happ] at hsim
  cases hsim with
  | ok hd' hm =>
    have hlen : 8 * (cellAt s.optics.arena.mem lens).words.length ≤
        lensLen s.optics.arena.mem lens := by
      unfold cellAt
      simp only [List.length_map, List.length_range]
      omega
    have hle := hw.len
    have hslots := slotsLen_le t
    simp only [entryAt_cell] at hle
    have hoff : SameOff s.optics.arena.mem m (lens + sizeofLens)
        (lensLen s.optics.arena.mem lens) := hm.mono le_rfl (by omega)
    refine ⟨hoff, fun l hl' => ?_⟩
    have hes := href.record m lens hl hoff
    have hentry : entryAt m l = (entryAt s.optics.arena.mem l).stored m lens := by
      unfold entries at hes
      rw [List.map_map] at hes
      exact List.map_inj_left.mp hes l hl'
    by_cases he : l = lens
    · subst he
      exact ⟨t, d', hw.stored hm hentry, .used hh happ, hd'⟩
    · unfold Entry.stored at hentry
      rw [if_neg (by exact he)] at hentry
      exact Tracked.keep h (by rw [hentry]; exact entry_mem hl') fun hc => he (Eq.symm hc)

theorem tracked_next {s s' : State} {tr : List (Event σ)} {ev : Event σ} (href : Refines s)
    (h : ∀ l ∈ s.regs, Tracked fpu rng tr s.optics.arena.mem l) (hs : Next fpu rng s ev s') :
    RegistryRuns.Step s s' ∧ ∀ l ∈ s'.regs, Tracked fpu rng (ev :: tr) s'.optics.arena.mem l := by
  have hsame : ∀ {o : StructOptics} {regs : List ℕ}, entries ⟨o, regs⟩ ⊆ entries s →
      ∀ l ∈ regs, Tracked fpu rng (.other :: tr) o.arena.mem l := fun hsub l hl =>
    Tracked.keep h (hsub (entry_mem (s := ⟨_, _⟩) hl)) id
  cases hs with
  | @alloc env name args lens o hrun =>
    refine ⟨RegistryRuns.Step.alloc hrun, ?_⟩
    rcases registers_iff (href.alloc env name args _ o hrun) with ⟨-, hr | ⟨e, -, hr⟩⟩ |
      ⟨off, hok, hr, hnew, hes⟩
    · cases hr
    · cases hr
    · cases hr
      exact tracked_made h (args_ok hok) hnew hes
  | @allocFail env name args o hrun =>
    refine ⟨RegistryRuns.Step.alloc hrun, ?_⟩
    rcases registers_iff (href.alloc env name args _ o hrun) with ⟨hes, -⟩ | ⟨off, -, hr, -⟩
    · exact hsame (fun e he => hes ▸ he)
    · cases hr
  | @allocGet env name args lens o hrun hnew =>
    have hregs : entered s.regs (some lens) = lens :: s.regs := if_neg hnew
    have hstep := RegistryRuns.Step.allocGet hrun
    have hreg := registers_iff (href.allocGet env name args _ o hrun)
    rw [hregs] at hstep hreg
    refine ⟨hstep, ?_⟩
    rcases hreg with ⟨-, hr | ⟨e, he, hr⟩⟩ | ⟨off, hok, hr, hnew', hes⟩
    · cases hr
    · cases hr
      exact absurd (mem_regs he).1 hnew
    · cases hr
      exact tracked_made h (args_ok hok) hnew' hes
  | @allocGetOld env name args r o hrun hold =>
    have hregs : entered s.regs r = s.regs := by
      cases r with
      | none => rfl
      | some lens => exact if_pos (hold lens rfl)
    have hstep := RegistryRuns.Step.allocGet hrun
    have hreg := registers_iff (href.allocGet env name args _ o hrun)
    rw [hregs] at hstep hreg
    refine ⟨hstep, ?_⟩
    rcases hreg with ⟨hes, -⟩ | ⟨off, -, hr, hnew, -⟩
    · exact hsame (fun e he => hes ▸ he)
    · exact absurd rfl (hnew _ (entry_mem (hold off hr)))
  | @get name r o hrun =>
    exact ⟨RegistryRuns.Step.get hrun, hsame fun e he => (href.get name r o hrun).2 ▸ he⟩
  | @free env lens r o hl hrun =>
    refine ⟨RegistryRuns.Step.free hl hrun, hsame fun e he => ?_⟩
    rw [href.free env r o lens hl hrun] at he
    exact List.mem_of_mem_filter he
  | @use lens u e x x' r m hl hrun =>
    obtain ⟨hoff, htr⟩ := tracked_used href h hl hrun
    exact ⟨RegistryRuns.Step.record hl hoff, htr⟩
  | @epochInc view now lastInc e o hrun =>
    refine ⟨RegistryRuns.Step.epochInc hrun, hsame fun e' he => ?_⟩
    exact href.epochInc view now lastInc e o hrun ▸ he

theorem tracked_run {tr : List (Event σ)} {s : State} (h : Run fpu rng tr s) :
    Reachable Start RegistryRuns.Step s ∧
      ∀ l ∈ s.regs, Tracked fpu rng tr s.optics.arena.mem l := by
  induction h with
  | start h0 =>
    refine ⟨Reachable.of_start h0, fun l hl => ?_⟩
    obtain ⟨_, _, _, _, o, -, rfl⟩ := h0
    exact absurd hl List.not_mem_nil
  | step _ hs ih =>
    obtain ⟨hstep, htr⟩ := tracked_next (registry_refines ih.1) ih.2 hs
    exact ⟨ih.1.tail hstep, htr⟩

theorem History.unique {lens : ℕ} {tr : List (Event σ)} {t t' : LensType} {d d' : LensData}
    (h : History fpu rng lens tr t d) (h' : History fpu rng lens tr t' d') : t = t' ∧ d = d' := by
  induction h generalizing t' d' with
  | made args =>
    cases h' with
    | made => exact ⟨rfl, rfl⟩
    | skip _ hev => exact absurd rfl hev
  | used h hd ih =>
    cases h' with
    | used h' hd' =>
      obtain ⟨ht, hdd⟩ := ih h'
      rw [← hdd, hd] at hd'
      cases hd'
      exact ⟨ht, rfl⟩
    | skip _ hev => exact absurd rfl hev
  | skip h hev ih =>
    cases h' with
    | made args => exact absurd rfl hev
    | used h' hd' => exact absurd rfl hev
    | skip h' _ => exact ih h'

variable (fpu rng) in
/-- What a registered lens is after a run. -/
structure Held (tr : List (Event σ)) (s : State) (lens : ℕ) (t : LensType) (d : LensData) : Prop where
  history : History fpu rng lens tr t d
  unique : ∀ t' d', History fpu rng lens tr t' d' → t' = t ∧ d' = d
  value : DataAt s.optics.arena.mem lens t d
  /-- the next call on it does what it does to the value -/
  call : ∀ (u : Use) e x, Simulates s.optics.arena.mem lens t
    (u.run fpu rng e x s.optics.arena.mem lens) (u.apply fpu rng e x d)

/-- **What a lens holds after any run** is what it was made with, changed by the calls on it. -/
theorem lens_history {tr : List (Event σ)} {s : State} (h : Run fpu rng tr s) :
    ∀ lens ∈ s.regs, ∃ t d, Held fpu rng tr s lens t d := by
  intro lens hl
  obtain ⟨t, d, -, hh, hd⟩ := (tracked_run h).2 lens hl
  exact ⟨t, d, hh, fun t' d' h' => h'.unique hh, hd, fun u e x => u.simulates fpu rng e x hd⟩

end Runs

/-- A counter among other lenses, two of which come and go. -/
def severalEvents : List (Event UInt64) :=
  [.made 99008 (.histo [1, 5]), .other, .other, .other, .made 66240 .counter, .made 704 .dist]

theorem several_run : ∃ o, Run binary64 (xorshift binary64) severalEvents ⟨o, [99008, 66240]⟩ := by
  obtain ⟨o₁, o₂, o₃, o₄, o₅, o₆, e, t, h₁, h₂, h₃, h₄, h₅, h₆⟩ := RegistryRuns.several_calls
  have hold : ∀ lens, some 66240 = some lens → lens ∈ [66240, 704] := by
    rintro lens ⟨⟩
    exact List.mem_cons_self
  have hs₃ : Run binary64 (xorshift binary64) [.other, .made 66240 .counter, .made 704 .dist]
      ⟨o₃, [66240, 704]⟩ :=
    .step (.step (.step (.start RegistryRuns.start_fresh) (.alloc h₁)) (.alloc h₂))
      (.allocGetOld h₃ hold)
  have hs₄ : Run binary64 (xorshift binary64) [.other, .other, .made 66240 .counter, .made 704 .dist]
      ⟨o₄, [66240, 704].erase 704⟩ :=
    hs₃.step (.free (List.mem_cons_of_mem _ List.mem_cons_self) h₄)
  exact ⟨o₆, (hs₄.step (.epochInc h₅)).step (.alloc h₆)⟩

theorem Run.counterInc {tr : List (Event UInt64)} {s : State} {lens : ℕ} {v : Fin 2 → UInt64}
    (h : Run binary64 (xorshift binary64) tr s) (hl : lens ∈ s.regs)
    (hh : History binary64 (xorshift binary64) lens tr .counter (.counter v)) (n : UInt64) :
    ∃ tr' s', Run binary64 (xorshift binary64) tr' s' ∧ s'.regs = s.regs ∧
      History binary64 (xorshift binary64) lens tr' .counter
        (.counter (Function.update v 0 (v 0 + n))) := by
  obtain ⟨t, d, -, hh', hd⟩ := (tracked_run h).2 lens hl
  obtain ⟨rfl, rfl⟩ := hh'.unique hh
  have happly : (Use.counterInc n).apply binary64 (xorshift binary64) 0 (1 : UInt64) (.counter v) =
      .ok (.recorded true, .counter (Function.update v 0 (v 0 + n)), 1) := rfl
  have hsim := (Use.counterInc n).simulates binary64 (xorshift binary64) 0 1 hd
  rw [happly] at hsim
  generalize hcall : (Use.counterInc n).run binary64 (xorshift binary64) 0 (1 : UInt64)
    s.optics.arena.mem lens = x at hsim
  cases hsim
  exact ⟨_, _, h.step (.use hl hcall), rfl, hh.used happly⟩

/-- Two increments of the counter, with the arithmetic and the generator of the machine. -/
theorem lens_history_several : ∃ tr s v, Run binary64 (xorshift binary64) tr s ∧
    Held binary64 (xorshift binary64) tr s 66240 .counter (.counter v) ∧ v 0 = 7 := by
  obtain ⟨o, hrun⟩ := several_run
  have hmade : History binary64 (xorshift binary64) 66240 severalEvents .counter
      (.counter fun _ => 0) :=
    .skip (.skip (.skip (.skip (.made .counter) id) id) id)
      (fun h => absurd (show 99008 = 66240 from h) (by decide))
  have hmem : 66240 ∈ [99008, 66240] := by decide
  obtain ⟨tr₁, s₁, hrun₁, hregs₁, hh₁⟩ := hrun.counterInc hmem hmade 3
  obtain ⟨tr₂, s₂, hrun₂, hregs₂, hh₂⟩ := hrun₁.counterInc (hregs₁ ▸ hmem) hh₁ 4
  obtain ⟨t, d, hheld⟩ := lens_history hrun₂ 66240 (hregs₂ ▸ hregs₁ ▸ hmem)
  obtain ⟨rfl, rfl⟩ := hheld.unique _ _ hh₂
  exact ⟨tr₂, s₂, _, hrun₂, hheld, rfl⟩

end Optics.LensRuns
