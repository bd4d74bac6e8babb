import Optics.LensRuns
import Optics.PollReturns
import Optics.Lib.Outcomes

/-! # Polling the bytes of the regions

`poller_poll_lens`, `poller_poll_optics` and the two loops of `optics_poller_poll_at` on the memory
of the regions: the list of lenses is walked by its links, and names, types and data are read off
the bytes. A poller has a region mapped at the length it had when it was opened; the walk ends at
the first lens beyond it.

`regions_polled`: after any run, the records made and what is left in the lenses are those of
`pollItems` on the histories of the lenses that the walk comes to. -/

namespace Optics.RegionPolls

open Optics.Base Optics.Doubles Optics.Lib.Bytes Optics.Lib.LinkedList Optics.Lib.Runs
open Optics.Lib.Outcomes
open Optics.Regions Optics.Allocator Optics.Lenses Optics.LensBlocks Optics.LensList
open Optics.LensSlots Optics.LensReads Optics.LensRuns Optics.LensWords
open Optics.Registry Optics.RegistryData Optics.RegistryInv Optics.RegistryOps Optics.RegistryRuns
open Optics.Utils.Random Optics.Utils.Htables Optics.Polling Optics.PollTotals Optics.PollReturns

/-! ### The functions -/

section Functions
variable {σ : Type} (hash : CStr → UInt64) (fpu : Fpu) (rng : Rng σ)

/-- The types, by their codes. -/
def lensTypes : List LensType := [.counter, .gauge, .dist, .histo, .quantile]

/-- What memory has for the lens, if it is of one of the types. -/
def polledLens (m : Mem) (lens : ℕ) : Option PolledLens :=
  lensTypes[lensType m lens]?.map fun t => ⟨lensName m lens, dataOf (dataWord m lens) t⟩

/-- What the call leaves in the record. -/
def valueAfter (before : OpticsPollValue) : Returned → OpticsPollValue
  | .recorded _ => before
  | .read _ value => value

/-- `poller_poll_lens`. A lens of no type, which there is none of, has no record here. -/
def pollerPollLens (ctx : PollerPollCtx) (m : Mem) (lens : ℕ) (values : Values σ) :
    Outcome (Mem × Values σ) := do
  let key ← pollKey ctx.regionPrefix ctx.host (lensName m lens)
  match polledLens m lens with
  | none => .error .undefined
  | some polled => do
    let (i, values) ← pollerGetValue hash ctx polled key.str values
    match values.polls[i]? with
    | none => .error .segv
    | some poll => do
      let (r, m, gen) ← (Use.read poll.value).run fpu rng ctx.epoch values.gen m lens
      let polls := values.polls.set i { poll with value := valueAfter poll.value r }
      .ok (m, { values with polls := polls, gen := gen })

/-- `optics_foreach_lens` with `poller_poll_lens`, from the lens at an offset on. -/
def opticsForeachLens (ctx : PollerPollCtx) : ℕ → Arena → ℕ → Values σ → Outcome (Mem × Values σ)
  | 0, _, _, _ => .error .diverge
  | fuel + 1, s, off, values =>
    if off = 0 then .ok (s.mem, values)
    else
      match lensPtr s off with
      | none => .ok (s.mem, values)
      | some lens => do
        let (m, values) ← pollerPollLens hash fpu rng ctx s.mem lens values
        opticsForeachLens ctx fuel (s.setMem m) (lensNext m lens) values

/-- `struct poller_list_item`. -/
structure RegionItem where
  optics : StructOptics
  lastPoll : ℕ
  epoch : Fin 2

/-- The first loop of `optics_poller_poll_at`. -/
def incRegions (ts : ℕ) : List StructOptics → Outcome (List RegionItem)
  | [] => .ok []
  | o :: rest => do
    let (epoch, lastPoll, o) ← opticsEpochIncAt o ts
    let items ← incRegions ts rest
    .ok (⟨o, lastPoll, epoch⟩ :: items)

/-- The context for the lenses of a region. -/
def regionCtx (host : CStr) (ts : ℕ) (item : RegionItem) : PollerPollCtx :=
  { ts := ts, elapsed := pollElapsed ts item.lastPoll, host := host
    regionPrefix := item.optics.headerPrefix, epoch := item.epoch }

/-- `poller_poll_optics`. -/
def pollerPollOptics (fuel : ℕ) (host : CStr) (ts : ℕ) (item : RegionItem) (values : Values σ) :
    Outcome (StructOptics × Values σ) := do
  let o := item.optics
  let (m, values) ← opticsForeachLens hash fpu rng (regionCtx host ts item) fuel o.arena o.lensHead
    values
  .ok (o.setArena (o.arena.setMem m), values)

/-- The second loop of `optics_poller_poll_at`. -/
def pollRegions (fuel : ℕ) (host : CStr) (ts : ℕ) : List RegionItem → Values σ →
    Outcome (List StructOptics × Values σ)
  | [], values => .ok ([], values)
  | item :: rest, values => do
    let (o, values) ← pollerPollOptics hash fpu rng fuel host ts item values
    let (others, values) ← pollRegions fuel host ts rest values
    .ok (o :: others, values)

/-- `optics_poller_poll_at` from the regions that are open to the table of records. -/
def pollAll (fuel : ℕ) (host : CStr) (ts : ℕ) (os : List StructOptics) (gen : σ) :
    Outcome (List StructOptics × Values σ) := do
  let items ← incRegions ts os
  pollRegions hash fpu rng fuel host ts items (Values.zero gen)

end Functions

/-! ### What a poll sees -/

section Seen
variable {σ : Type} (fpu : Fpu) (rng : Rng σ)

/-- Memory has for the lens what its history comes to. -/
structure Shows (tr : List (Event σ)) (m : Mem) (lens : ℕ) (polled : PolledLens) : Prop where
  memory : polledLens m lens = some polled
  history : ∃ t, History fpu rng lens tr t polled.data

/-- The lenses that a walk comes to in a process that has mapped the region as `view`. -/
def seen (s : Arena) (view : Region) (lenses : List ℕ) : List ℕ :=
  lenses.takeWhile fun lens => (lensPtr { s with region := view } lens).isSome

/-- The lens has been read, and nothing else. -/
structure ReadOff (ctx : PollerPollCtx) (m : Mem) (lens : ℕ) (d : LensData) (x : Mem × Values σ)
    (y : (ℕ × PolledLens) × Values σ) : Prop where
  values : y.2 = x.2
  name : y.1.2.name = lensName m lens
  read : ∃ value g r g', (Use.read value).run fpu rng ctx.epoch g m lens = .ok (r, x.1, g') ∧
    (Use.read value).apply fpu rng ctx.epoch g d = .ok (r, y.1.2.data, g')

/-- The event is a read of one of the lenses. -/
def IsRead (epoch : Fin 2) (lenses : List ℕ) (ev : Event σ) : Prop :=
  ∃ lens ∈ lenses, ∃ value g r g', ev = .used lens (.read value) epoch g r g'

/-- The state with other bytes. -/
def withMem (s : State) (m : Mem) : State := ⟨s.optics.setArena (s.optics.arena.setMem m), s.regs⟩

/-- The lenses have been read one after the other. -/
structure Swept (tr : List (Event σ)) (s : State) (epoch : Fin 2) (lenses : List ℕ) (m : Mem)
    (after : List PolledLens) (reads : List (Event σ)) : Prop where
  run : Run fpu rng (reads ++ tr) (withMem s m)
  only : ∀ ev ∈ reads, IsRead epoch lenses ev
  after : List.Forall₂ (Shows fpu rng (reads ++ tr) m) lenses after
  names : ∀ lens ∈ s.regs, lensName m lens = lensName s.optics.arena.mem lens

variable {fpu rng} {tr : List (Event σ)} {s : State} {lens : ℕ} {t : LensType} {d : LensData}
  {m : Mem}

theorem lensTypes_code (t : LensType) : lensTypes[t.code]? = some t := by
  cases t <;> rfl

theorem polledLens_of_dataAt (h : DataAt m lens t d) :
    polledLens m lens = some ⟨lensName m lens, d⟩ := by
  unfold polledLens
  rw [h.1, lensTypes_code, Option.map_some, h.2]

theorem Shows.name {polled : PolledLens} (h : Shows fpu rng tr m lens polled) :
    polled.name = lensName m lens := by
  obtain ⟨t, -, heq⟩ := Option.map_eq_some_iff.mp h.memory
  rw [← heq]

/-- What a registered lens shows is decided by its history. -/
theorem shows_of_history (h : Run fpu rng tr s) (hl : lens ∈ s.regs)
    (hh : History fpu rng lens tr t d) :
    Shows fpu rng tr s.optics.arena.mem lens ⟨lensName s.optics.arena.mem lens, d⟩ := by
  obtain ⟨t', d', -, hh', hd⟩ := (tracked_run h).2 lens hl
  obtain ⟨rfl, rfl⟩ := hh.unique hh'
  exact ⟨polledLens_of_dataAt hd, t, hh⟩

theorem Shows.dataAt {polled : PolledLens} (h : Shows fpu rng tr s.optics.arena.mem lens polled)
    (hrun : Run fpu rng tr s) (hl : lens ∈ s.regs) :
    ∃ t, History fpu rng lens tr t polled.data ∧
      DataAt s.optics.arena.mem lens t polled.data := by
  obtain ⟨t, hh⟩ := h.history
  obtain ⟨t', d, -, hh', hd⟩ := (tracked_run hrun).2 lens hl
  obtain ⟨rfl, hdata⟩ := hh.unique hh'
  exact ⟨t, hh, hdata ▸ hd⟩

theorem exists_shows (h : Run fpu rng tr s) {lenses : List ℕ} (hsub : lenses ⊆ s.regs) :
    ∃ polled, List.Forall₂ (Shows fpu rng tr s.optics.arena.mem) lenses polled := by
  induction lenses with
  | nil => exact ⟨[], .nil⟩
  | cons lens lenses ih =>
    rw [List.cons_subset] at hsub
    obtain ⟨polled, hpolled⟩ := ih hsub.2
    obtain ⟨t, d, -, hh, -⟩ := (tracked_run h).2 lens hsub.1
    exact ⟨_ :: polled, .cons (shows_of_history h hsub.1 hh) hpolled⟩

theorem History.skips (h : History fpu rng lens tr t d) : ∀ {evs : List (Event σ)},
    (∀ ev ∈ evs, ¬ ev.About lens) → History fpu rng lens (evs ++ tr) t d
  | [], _ => h
  | ev :: evs, hevs => by
    rw [List.forall_mem_cons] at hevs
    exact .skip (History.skips h hevs.2) hevs.1

theorem IsRead.mono {epoch : Fin 2} {lenses lenses' : List ℕ} {ev : Event σ}
    (h : IsRead epoch lenses ev) (hsub : lenses ⊆ lenses') : IsRead epoch lenses' ev := by
  obtain ⟨lens, hl, hev⟩ := h
  exact ⟨lens, hsub hl, hev⟩

theorem IsRead.not_about {epoch : Fin 2} {lenses : List ℕ} {ev : Event σ}
    (h : IsRead epoch lenses ev) (hl : lens ∉ lenses) : ¬ ev.About lens := by
  obtain ⟨l, hmem, value, g, r, g', rfl⟩ := h
  intro hc
  exact hl (hc ▸ hmem)

end Seen

/-! ### One lens -/

section Lens
variable {σ : Type} {hash : CStr → UInt64} {fpu : Fpu} {rng : Rng σ}

theorem read_alike {m : Mem} {lens : ℕ} {t : LensType} {d : LensData} (h : DataAt m lens t d)
    (e : Fin 2) (g : σ) (value : OpticsPollValue) :
    Alike (fun (x : Returned × Mem × σ) (y : OpticsRet × OpticsPollValue × LensData × σ) =>
      x.1 = .read y.1 y.2.1 ∧ x.2.2 = y.2.2.2 ∧
        (Use.read value).run fpu rng e g m lens = .ok x ∧
        (Use.read value).apply fpu rng e g d = .ok (x.1, y.2.2.1, x.2.2))
      ((Use.read value).run fpu rng e g m lens) (readValue fpu rng value d e g) := by
  have hsim := (Use.read value).simulates fpu rng e g h
  rcases hy : readValue fpu rng value d e g with f | ⟨ret, value', d', g'⟩
  · have happly : (Use.read value).apply fpu rng e g d = .error f := by
      simp only [Use.apply, hy]
      rfl
    rw [happly] at hsim
    generalize (Use.read value).run fpu rng e g m lens = x at hsim
    cases hsim
    exact .error f
  · have happly : (Use.read value).apply fpu rng e g d = .ok (.read ret value', d', g') := by
      simp only [Use.apply, hy]
      rfl
    rw [happly] at hsim
    rcases hx : (Use.read value).run fpu rng e g m lens with f | x
    · rw [hx] at hsim
      cases hsim
    · rw [hx] at hsim
      cases hsim
      exact .ok ⟨rfl, rfl, rfl, happly⟩

/-- **A lens is polled** as its value is. -/
theorem pollerPollLens_alike {m : Mem} {lens : ℕ} {t : LensType} {d : LensData}
    (h : DataAt m lens t d) (ctx : PollerPollCtx) (values : Values σ) :
    Alike (ReadOff fpu rng ctx m lens d) (pollerPollLens hash fpu rng ctx m lens values)
      (Polling.pollerPollLens hash fpu rng ctx ⟨lensName m lens, d⟩ values) := by
  unfold pollerPollLens Polling.pollerPollLens
  rw [polledLens_of_dataAt h]
  refine Alike.same fun key _ => Alike.same fun r _ => ?_
  obtain ⟨i, values⟩ := r
  dsimp only
  cases values.polls[i]? with
  | none => exact .error Fault.segv
  | some poll =>
    refine (read_alike h ctx.epoch values.gen poll.value).bind ?_
    rintro ⟨r, m', g'⟩ ⟨ret, value, d', g''⟩ ⟨hr, hg, hrun, happly⟩
    cases hr
    cases hg
    exact .ok ⟨rfl, rfl, poll.value, values.gen, _, _, hrun, happly⟩

end Lens

/-! ### The walk -/

section Walk
variable {σ : Type} {fpu : Fpu} {rng : Rng σ} {tr : List (Event σ)} {s : State}

theorem header_kept (h : Run fpu rng tr s) {lens l : ℕ} {m : Mem} (hl : lens ∈ s.regs)
    (hl' : l ∈ s.regs) (hm : SameOff s.optics.arena.mem m (lens + sizeofLens)
      (lensLen s.optics.arena.mem lens)) :
    ∀ x, l ≤ x → x < l + sizeofLens → m x = s.optics.arena.mem x := by
  obtain ⟨ls, D, lost, A, F, hinv, hregs⟩ := exists_inv (tracked_run h).1
  rw [← hregs, List.mem_map] at hl hl'
  obtain ⟨a, ha, rfl⟩ := hl
  obtain ⟨b, hb, rfl⟩ := hl'
  have hlen := (hinv.linked.lensAt a ha).len
  have hs : sizeofLens = 64 := rfl
  have hta : a.total = sizeofLens + (a.name.val.length + 1) + a.dataLen := rfl
  have htb : b.total = sizeofLens + (b.name.val.length + 1) + b.dataLen := rfl
  intro x h1 h2
  refine hm x ?_
  rw [hlen]
  rcases eq_or_ne a.off b.off with he | hne
  · omega
  · have hapart := hinv.placed.apart hinv.arena ha hb hne
    omega

/-- A read keeps the list, and what is mapped of it. -/
structure Steady (s : State) (m : Mem) : Prop where
  next : ∀ l ∈ s.regs, lensNext m l = lensNext s.optics.arena.mem l
  total : ∀ l ∈ s.regs, lensTotalLen m l = lensTotalLen s.optics.arena.mem l
  names : ∀ l ∈ s.regs, lensName m l = lensName s.optics.arena.mem l

theorem steady_of_read (h : Run fpu rng tr s) {lens : ℕ} {u : Use} {e : Fin 2} {g g' : σ}
    {r : Returned} {m : Mem} (hl : lens ∈ s.regs)
    (hrun : u.run fpu rng e g s.optics.arena.mem lens = .ok (r, m, g')) : Steady s m := by
  have href := registry_refines (tracked_run h).1
  have hoff := (tracked_used href (tracked_run h).2 hl hrun).1
  have hs : sizeofLens = 64 := rfl
  have hheader := fun l hl' => header_kept h hl hl' hoff (l := l)
  refine ⟨fun l hl' => ?_, fun l hl' => ?_, fun l hl' => ?_⟩
  · exact load_congr fun x h1 h2 => hheader l hl' x (by omega) (by omega)
  · have hlen : lensLen m l = lensLen s.optics.arena.mem l :=
      load_congr fun x h1 h2 => hheader l hl' x (by omega) (by omega)
    have hname : nameLen m l = nameLen s.optics.arena.mem l :=
      load_congr fun x h1 h2 => hheader l hl' x (by omega) (by omega)
    rw [lensTotalLen, lensTotalLen, hlen, hname]
  · have hes := href.record m lens hl hoff
    unfold entries at hes
    rw [List.map_map] at hes
    have hentry : entryAt m l = (entryAt s.optics.arena.mem l).stored m lens :=
      List.map_inj_left.mp hes l hl'
    have hname := congrArg Entry.name hentry
    unfold Entry.stored at hname
    split_ifs at hname
    · exact hname
    · exact hname

theorem lensPtr_congr {s s' : Arena} {l : ℕ} (hregion : s'.region = s.region)
    (h : lensTotalLen s'.mem l = lensTotalLen s.mem l) : lensPtr s' l = lensPtr s l := by
  unfold lensPtr
  rw [hregion]
  cases hp : regionPtr s.region l sizeofLens with
  | none => rfl
  | some p =>
    obtain ⟨rfl, -⟩ := regionPtr_eq_some hp
    dsimp only
    rw [h]

theorem seen_congr {s s' : Arena} {view : Region} {lenses : List ℕ}
    (h : ∀ l ∈ lenses, lensTotalLen s'.mem l = lensTotalLen s.mem l) :
    seen s' view lenses = seen s view lenses := by
  induction lenses with
  | nil => rw [seen, seen, List.takeWhile_nil, List.takeWhile_nil]
  | cons lens lenses ih =>
    have hptr : lensPtr { s' with region := view } lens = lensPtr { s with region := view } lens :=
      lensPtr_congr rfl (h lens List.mem_cons_self)
    have htail := ih fun l hl => h l (List.mem_cons_of_mem lens hl)
    unfold seen at htail ⊢
    rw [List.takeWhile_cons, List.takeWhile_cons, htail, hptr]

/-- The walk ends at a lens beyond what is mapped. -/
theorem seen_cons_none {s : Arena} {view : Region} {lens : ℕ} {rest : List ℕ}
    (h : lensPtr { s with region := view } lens = none) : seen s view (lens :: rest) = [] := by
  rw [seen, List.takeWhile_cons, h]
  rfl

theorem seen_cons_some {s : Arena} {view : Region} {lens p : ℕ} {rest : List ℕ}
    (h : lensPtr { s with region := view } lens = some p) :
    seen s view (lens :: rest) = lens :: seen s view rest := by
  rw [seen, List.takeWhile_cons, h]
  rfl

theorem lensPtr_eq {s : Arena} {l p : ℕ} (h : lensPtr s l = some p) : p = l := by
  unfold lensPtr at h
  split at h
  · cases h
  · exact (regionPtr_eq_some h).1

theorem shows_skip {ev : Event σ} {m : Mem} {lenses : List ℕ} {polled : List PolledLens}
    (h : List.Forall₂ (Shows fpu rng tr m) lenses polled) (hrun : Run fpu rng (ev :: tr) s)
    (hl : ∀ l ∈ lenses, l ∈ s.regs ∧ ¬ ev.About l ∧
      lensName s.optics.arena.mem l = lensName m l) :
    List.Forall₂ (Shows fpu rng (ev :: tr) s.optics.arena.mem) lenses polled := by
  refine ((List.forall₂_and_left _ _).mpr ⟨hl, h⟩).imp ?_
  rintro l p ⟨⟨hmem, hev, hname⟩, hshows⟩
  obtain ⟨t, hh⟩ := hshows.history
  have hp : p = ⟨lensName s.optics.arena.mem l, p.data⟩ := by
    rw [hname, ← hshows.name]
  rw [hp]
  exact shows_of_history hrun hmem (.skip hh hev)

theorem Steady.rest {m : Mem} {ev : Event σ} {rest : List ℕ} {a : ℕ} {view : Region}
    {polled : List PolledLens} (h : Steady s m) (hrun : Run fpu rng (ev :: tr) (withMem s m))
    (hsub : rest ⊆ s.regs) (hev : ∀ l ∈ rest, ¬ ev.About l)
    (hchain : Chain (lensNext s.optics.arena.mem) a rest)
    (hpolled : List.Forall₂ (Shows fpu rng tr s.optics.arena.mem)
      (seen s.optics.arena view rest) polled) :
    seen (withMem s m).optics.arena view rest = seen s.optics.arena view rest ∧
      Chain (lensNext m) a rest ∧
      List.Forall₂ (Shows fpu rng (ev :: tr) m) (seen s.optics.arena view rest) polled := by
  refine ⟨seen_congr fun l hl => h.total l (hsub hl), hchain.congr fun l hl => h.next l (hsub hl),
    shows_skip hpolled hrun fun l hl => ?_⟩
  have hl' := List.takeWhile_subset _ hl
  exact ⟨hsub hl', hev l hl', h.names l (hsub hl')⟩

theorem swept_nil (h : Run fpu rng tr s) (e : Fin 2) :
    Swept fpu rng tr s e [] s.optics.arena.mem [] [] :=
  ⟨h, by simp, .nil, fun _ _ => rfl⟩

theorem Swept.cons {e : Fin 2} {lens : ℕ} {lenses : List ℕ} {m m' : Mem} {d d' : LensData}
    {t : LensType} {after : List PolledLens} {reads : List (Event σ)} {value : OpticsPollValue}
    {g g' : σ} {r : Returned} (hl : lens ∈ s.regs) (hsteady : Steady s m)
    (hh : History fpu rng lens tr t d)
    (happly : (Use.read value).apply fpu rng e g d = .ok (r, d', g'))
    (h : Swept fpu rng (.used lens (.read value) e g r g' :: tr) (withMem s m) e lenses m' after
      reads) (hnot : lens ∉ lenses) :
    Swept fpu rng tr s e (lens :: lenses) m' (⟨lensName s.optics.arena.mem lens, d'⟩ :: after)
      (reads ++ [.used lens (.read value) e g r g']) := by
  have hassoc : reads ++ [.used lens (.read value) e g r g'] ++ tr =
      reads ++ .used lens (.read value) e g r g' :: tr := List.append_assoc _ _ _
  have hnames : ∀ l ∈ s.regs, lensName m' l = lensName s.optics.arena.mem l := fun l hl' =>
    (h.names l hl').trans (hsteady.names l hl')
  refine ⟨by rw [hassoc]; exact h.run, fun ev hev => ?_, ?_, hnames⟩
  · rcases List.mem_append.mp hev with hev | hev
    · exact (h.only ev hev).mono (List.subset_cons_self _ _)
    · exact ⟨lens, List.mem_cons_self, value, g, r, g', List.mem_singleton.mp hev⟩
  · rw [hassoc]
    refine .cons ?_ h.after
    have hskips := History.skips (.used hh happly) fun ev hev => (h.only ev hev).not_about hnot
    rw [← hnames lens hl]
    exact shows_of_history h.run hl hskips

/-- **The walk reads the lenses that it comes to**, as a poll of their values does. -/
theorem opticsForeachLens_alike (hash : CStr → UInt64) (ctx : PollerPollCtx) (view : Region)
    {rest : List ℕ} :
    ∀ {tr : List (Event σ)} {s : State} {off fuel : ℕ} {polled : List PolledLens}
      (values : Values σ), Run fpu rng tr s → rest ⊆ s.regs →
      Chain (lensNext s.optics.arena.mem) off rest → rest.length < fuel →
      List.Forall₂ (Shows fpu rng tr s.optics.arena.mem) (seen s.optics.arena view rest) polled →
      Alike (fun (x : Mem × Values σ) (y : List (ℕ × PolledLens) × Values σ) => y.2 = x.2 ∧
        ∃ reads, Swept fpu rng tr s ctx.epoch (seen s.optics.arena view rest) x.1
          (y.1.map Prod.snd) reads)
        (opticsForeachLens hash fpu rng ctx fuel { s.optics.arena with region := view } off values)
        (pollEach hash fpu rng (polled.map fun p => (ctx, p)) values) := by
  induction rest with
  | nil =>
    intro tr s off fuel polled values hrun _ hchain hfuel hpolled
    obtain ⟨fuel, rfl⟩ := Nat.exists_eq_succ_of_ne_zero (Nat.ne_of_gt hfuel)
    rw [seen, List.takeWhile_nil] at hpolled ⊢
    cases hpolled
    rw [opticsForeachLens, if_pos (chain_nil.mp hchain)]
    exact .ok ⟨rfl, [], swept_nil hrun _⟩
  | cons lens rest ih =>
    intro tr s off fuel polled values hrun hsub hchain hfuel hpolled
    obtain ⟨fuel, rfl⟩ := Nat.exists_eq_succ_of_ne_zero (Nat.ne_of_gt (Nat.zero_lt_of_lt hfuel))
    have hnodup := hchain.nodup
    obtain ⟨rfl, hne, htail⟩ := chain_cons.mp hchain
    rw [List.cons_subset] at hsub
    rw [opticsForeachLens, if_neg hne]
    rcases hptr : lensPtr { s.optics.arena with region := view } off with _ | p
    · rw [seen_cons_none hptr] at hpolled ⊢
      cases hpolled
      exact .ok ⟨rfl, [], swept_nil hrun _⟩
    · obtain rfl := lensPtr_eq hptr
      rw [seen_cons_some hptr] at hpolled ⊢
      cases hpolled with
      | @cons _ first _ polled hfirst hpolled =>
        obtain ⟨t, hh, hd⟩ := hfirst.dataAt hrun hsub.1
        have hname := hfirst.name
        obtain ⟨name, d⟩ := first
        cases hname
        rw [List.map_cons, pollEach]
        refine (pollerPollLens_alike hd ctx values).bind ?_
        rintro ⟨m, values⟩ ⟨⟨i, name, d'⟩, values'⟩ ⟨hvalues, hname, value, g, r, g', hread, happly⟩
        cases hvalues
        cases hname
        have hsteady := steady_of_read hrun hsub.1 hread
        have hrun' : Run fpu rng (.used p (.read value) ctx.epoch g r g' :: tr) (withMem s m) :=
          .step hrun (.use hsub.1 hread)
        have hrest : p ∉ rest := (List.nodup_cons.mp hnodup).1
        obtain ⟨hlens, hnext, hpolled'⟩ := hsteady.rest hrun' hsub.2
          (fun l hl hc => hrest (hc ▸ hl)) htail hpolled
        rw [← hsteady.next p hsub.1] at hnext
        rw [← hlens] at hpolled'
        refine (ih values hrun' hsub.2 hnext (Nat.lt_of_succ_lt_succ hfuel) hpolled').bind_right ?_
        rintro ⟨m', values'⟩ ⟨others, values''⟩ ⟨hvalues, reads, hswept⟩
        cases hvalues
        rw [hlens] at hswept
        have hnot : p ∉ seen s.optics.arena view rest := fun hc => hrest (List.takeWhile_subset _ hc)
        exact .ok ⟨rfl, _, hswept.cons hsub.1 hsteady hh happly hnot⟩

end Walk

/-! ### The regions -/

section Regions
variable {σ : Type}

/-- A region after a run, and how much of it the poller has mapped. -/
structure Watched (σ : Type) where
  tr : List (Event σ)
  s : State
  view : Region

/-- The region in the poller. -/
def Watched.optics (w : Watched σ) : StructOptics := w.s.optics.seenBy w.view

/-- The lenses that the poller comes to. -/
def Watched.seen (w : Watched σ) : List ℕ := RegionPolls.seen w.s.optics.arena w.view w.s.regs

variable (fpu : Fpu) (rng : Rng σ)

/-- The region as a poll of values has it. -/
structure ItemOf (w : Watched σ) (item : PollerListItem) : Prop where
  regionPrefix : item.regionPrefix = w.s.optics.headerPrefix
  lastPoll : item.lastPoll = w.s.optics.epochLastInc
  epoch : item.epoch = opticsEpoch w.s.optics
  lenses : List.Forall₂ (Shows fpu rng w.tr w.s.optics.arena.mem) w.seen item.lenses

/-- The region in another epoch, the poller's item for it and the state it is in. -/
structure Inc (w : Watched σ) (item : RegionItem) (s : State) : Prop where
  run : Run fpu rng (.other :: w.tr) s
  regs : s.regs = w.s.regs
  optics : item.optics = s.optics.seenBy w.view
  headerPrefix : item.optics.headerPrefix = w.s.optics.headerPrefix
  lastPoll : item.lastPoll = w.s.optics.epochLastInc
  epoch : item.epoch = opticsEpoch w.s.optics
  total : ∀ l ∈ w.s.regs, lensTotalLen s.optics.arena.mem l = lensTotalLen w.s.optics.arena.mem l
  names : ∀ l ∈ w.s.regs, lensName s.optics.arena.mem l = lensName w.s.optics.arena.mem l

/-- What a poll leaves of a region: its lenses have been read in the epoch that was left. -/
structure Leaves (w : Watched σ) (o : StructOptics) (after : List PolledLens)
    (reads : List (Event σ)) (s : State) : Prop where
  run : Run fpu rng (reads ++ .other :: w.tr) s
  regs : s.regs = w.s.regs
  optics : o = s.optics.seenBy w.view
  only : ∀ ev ∈ reads, IsRead (opticsEpoch w.s.optics) w.seen ev
  after : List.Forall₂ (Shows fpu rng (reads ++ .other :: w.tr) s.optics.arena.mem) w.seen after

/-- What a poll leaves of all regions. -/
inductive LeavesAll : List (Watched σ) → List StructOptics → List (List (ℕ × PolledLens)) → Prop
  | nil : LeavesAll [] [] []
  | cons {w : Watched σ} {ws : List (Watched σ)} {o : StructOptics} {os : List StructOptics}
      {out : List (ℕ × PolledLens)} {outs : List (List (ℕ × PolledLens))}
      (h : ∃ reads s, Leaves fpu rng w o (out.map Prod.snd) reads s) (hs : LeavesAll ws os outs) :
      LeavesAll (w :: ws) (o :: os) (out :: outs)

variable {fpu rng} {hash : CStr → UInt64}

theorem opticsEpochIncAt_prefix {o o' : StructOptics} {now last : ℕ} {e : Fin 2}
    (h : opticsEpochIncAt o now = .ok (e, last, o')) : o'.headerPrefix = o.headerPrefix := by
  obtain ⟨⟨e', o1⟩, hinc, h⟩ := bind_eq_ok.mp h
  cases h
  obtain ⟨o2, hfree, h⟩ := bind_eq_ok.mp hinc
  cases h
  obtain ⟨s, -, h⟩ := bind_eq_ok.mp hfree
  cases h
  rfl

/-- **The epoch of a region is left**, and its lenses stay what they are. -/
theorem exists_inc {w : Watched σ} (h : Run fpu rng w.tr w.s) (ts : ℕ) : ∃ item s,
    opticsEpochIncAt w.optics ts = .ok (item.epoch, item.lastPoll, item.optics) ∧
      Inc fpu rng w item s := by
  obtain ⟨ls, D, lost, A, F, hinv, hregs⟩ := exists_inv (tracked_run h).1
  obtain ⟨o, kept, F', hinc, hregion, -, -, hdrained⟩ := opticsEpochIncAt_spec hinv w.view ts
  have hrun : Run fpu rng (.other :: w.tr)
      ⟨(o.seenBy w.view).seenBy w.s.optics.arena.region, w.s.regs⟩ := .step h (.epochInc hinc)
  have hentries := (registry_refines (tracked_run h).1).epochInc _ _ _ _ _ hinc
  have hprefix := opticsEpochIncAt_prefix hinc
  refine ⟨⟨o.seenBy w.view, w.s.optics.epochLastInc, opticsEpoch w.s.optics⟩, _, hinc,
    ⟨hrun, rfl, rfl, hprefix, rfl, rfl, fun l hl => ?_, fun l hl => ?_⟩⟩
  · rw [← hregs, List.mem_map] at hl
    obtain ⟨a, ha, rfl⟩ := hl
    exact ((hdrained.inv.linked.lensAt a ha).total_eq (hdrained.inv.total_le ha)).trans
      ((hinv.linked.lensAt a ha).total_eq (hinv.total_le ha)).symm
  · exact congrArg Entry.name (List.map_inj_left.mp hentries l hl)

theorem incRegions_spec (ts : ℕ) : ∀ {ws : List (Watched σ)}, (∀ w ∈ ws, Run fpu rng w.tr w.s) →
    ∃ items, incRegions ts (ws.map Watched.optics) = .ok items ∧
      List.Forall₂ (fun w item => ∃ s, Inc fpu rng w item s) ws items
  | [], _ => ⟨[], rfl, .nil⟩
  | w :: ws, hws => by
    rw [List.forall_mem_cons] at hws
    obtain ⟨item, s, hrun, hinc⟩ := exists_inc hws.1 ts
    obtain ⟨items, hruns, hincs⟩ := incRegions_spec ts hws.2
    refine ⟨item :: items, ?_, .cons ⟨s, hinc⟩ hincs⟩
    rw [List.map_cons, incRegions, hrun, ok_bind]
    dsimp only
    rw [hruns, ok_bind]

/-- The walk of a poller that has all of the region mapped comes to every lens. -/
theorem seen_all {w : Watched σ} (h : Run fpu rng w.tr w.s)
    (hview : w.view = w.s.optics.arena.region) : w.seen = w.s.regs := by
  obtain ⟨ls, D, lost, A, F, hinv, hregs⟩ := exists_inv (tracked_run h).1
  refine List.takeWhile_eq_self_iff.mpr fun l hl => ?_
  rw [← hregs, List.mem_map] at hl
  obtain ⟨a, ha, rfl⟩ := hl
  have hptr := lensPtr_live hinv.arena (hinv.placed.live a ha) (hinv.linked.lensAt a ha)
  rw [hview]
  exact Option.isSome_iff_exists.mpr ⟨_, hptr⟩

/-- **A region is polled** as the values of its lenses are. -/
theorem pollerPollOptics_alike {w : Watched σ} {item : RegionItem} {s : State}
    {polled : PollerListItem} (h : Inc fpu rng w item s) (hitem : ItemOf fpu rng w polled)
    {fuel : ℕ} (hfuel : w.s.regs.length < fuel) (host : CStr) (ts : ℕ) (values : Values σ) :
    Alike (fun (x : StructOptics × Values σ) (y : List (ℕ × PolledLens) × Values σ) => y.2 = x.2 ∧
      ∃ reads s', Leaves fpu rng w x.1 (y.1.map Prod.snd) reads s')
      (pollerPollOptics hash fpu rng fuel host ts item values)
      (Polling.pollerPollOptics hash fpu rng host ts polled values) := by
  obtain ⟨hrun, hregs, hoptics, hprefix, hlast, hepoch, htotal, hnames⟩ := h
  obtain ⟨ls, D, lost, A, F, hinv, hls⟩ := exists_inv (tracked_run hrun).1
  have hchain := hinv.linked.list.chain
  rw [hls] at hchain
  have hctx : regionCtx host ts item = pollCtx host ts polled := by
    rw [regionCtx, pollCtx, hprefix, hlast, hepoch, hitem.regionPrefix, hitem.lastPoll, hitem.epoch]
  have hseen : seen s.optics.arena w.view s.regs = w.seen := by
    rw [hregs]
    exact seen_congr htotal
  have hshows : List.Forall₂ (Shows fpu rng (.other :: w.tr) s.optics.arena.mem)
      (seen s.optics.arena w.view s.regs) polled.lenses := by
    rw [hseen]
    refine shows_skip hitem.lenses hrun fun l hl => ?_
    have hl' : l ∈ w.s.regs := List.takeWhile_subset _ hl
    exact ⟨hregs ▸ hl', id, hnames l hl'⟩
  have hwalk := opticsForeachLens_alike hash (regionCtx host ts item) w.view values hrun
    (List.Subset.refl _) hchain (hregs ▸ hfuel) hshows
  rw [hseen, hctx] at hwalk
  unfold pollerPollOptics Polling.pollerPollOptics
  rw [hctx, hoptics]
  refine hwalk.bind_left ?_
  rintro ⟨m, values⟩ ⟨out, values'⟩ ⟨hvalues, reads, hswept⟩
  cases hvalues
  refine .ok ⟨rfl, reads, _, hswept.run, hregs, rfl, ?_, hswept.after⟩
  rw [← hitem.epoch]
  exact hswept.only

theorem pollRegions_alike {ws : List (Watched σ)} {items : List RegionItem}
    (hinc : List.Forall₂ (fun w item => ∃ s, Inc fpu rng w item s) ws items) {fuel : ℕ}
    (host : CStr) (ts : ℕ) : ∀ {polled : List PollerListItem} {values : Values σ},
      (∀ w ∈ ws, w.s.regs.length < fuel) → List.Forall₂ (ItemOf fpu rng) ws polled →
      Alike (fun (x : List StructOptics × Values σ) (y : List (List (ℕ × PolledLens)) × Values σ) =>
        x.2 = y.2 ∧ LeavesAll fpu rng ws x.1 y.1)
        (pollRegions hash fpu rng fuel host ts items values)
        (pollItems hash fpu rng host ts polled values) := by
  induction hinc with
  | nil =>
    intro polled values _ hpolled
    cases hpolled
    exact .ok ⟨rfl, .nil⟩
  | cons hinc _ ih =>
    intro polled values hfuel hpolled
    rw [List.forall_mem_cons] at hfuel
    cases hpolled with
    | cons hitem hpolled =>
      obtain ⟨s, hinc⟩ := hinc
      rw [pollRegions, pollItems]
      refine (pollerPollOptics_alike hinc hitem hfuel.1 host ts values).bind ?_
      rintro ⟨o, values⟩ ⟨out, values'⟩ ⟨hvalues, hleaves⟩
      cases hvalues
      refine (ih hfuel.2 hpolled).bind ?_
      rintro ⟨os, values⟩ ⟨outs, values'⟩ ⟨hvalues, hall⟩
      cases hvalues
      exact .ok ⟨rfl, .cons hleaves hall⟩

theorem exists_items {ws : List (Watched σ)} (hws : ∀ w ∈ ws, Run fpu rng w.tr w.s) :
    ∃ items, List.Forall₂ (ItemOf fpu rng) ws items := by
  induction ws with
  | nil => exact ⟨[], .nil⟩
  | cons w ws ih =>
    rw [List.forall_mem_cons] at hws
    obtain ⟨items, hitems⟩ := ih hws.2
    obtain ⟨lenses, hlenses⟩ := exists_shows hws.1 (List.takeWhile_subset _ : w.seen ⊆ w.s.regs)
    exact ⟨⟨w.s.optics.headerPrefix, w.s.optics.epochLastInc, opticsEpoch w.s.optics, lenses⟩ ::
      items, .cons ⟨rfl, rfl, rfl, hlenses⟩ hitems⟩

/-- **Polling the bytes of the regions** makes the records that a poll of the histories of their
lenses makes, or fails as it does, and leaves the lenses read. The lenses of a region are those the
walk comes to, all of them if the poller has all of the region mapped. -/
theorem regions_polled (hash : CStr → UInt64) {ws : List (Watched σ)}
    (hws : ∀ w ∈ ws, Run fpu rng w.tr w.s) {fuel : ℕ} (hfuel : ∀ w ∈ ws, w.s.regs.length < fuel)
    (host : CStr) (ts : ℕ) (gen : σ) :
    (∀ w ∈ ws, w.view = w.s.optics.arena.region → w.seen = w.s.regs) ∧
      ∃ items, List.Forall₂ (ItemOf fpu rng) ws items ∧
        Alike (fun (x : List StructOptics × Values σ)
          (y : List (List (ℕ × PolledLens)) × Values σ) =>
            x.2 = y.2 ∧ LeavesAll fpu rng ws x.1 y.1)
          (pollAll hash fpu rng fuel host ts (ws.map Watched.optics) gen)
          (pollItems hash fpu rng host ts items (Values.zero gen)) := by
  refine ⟨fun w hw hview => seen_all (hws w hw) hview, ?_⟩
  obtain ⟨items, hitems⟩ := exists_items hws
  obtain ⟨incs, hruns, hincs⟩ := incRegions_spec ts hws
  refine ⟨items, hitems, ?_⟩
  rw [pollAll, hruns, ok_bind]
  exact pollRegions_alike hincs host ts hfuel hitems

end Regions

/-- A region with a distribution just made, in a poller that has mapped all of it. -/
def distRegion (o : StructOptics) : Watched UInt64 :=
  ⟨[.made 704 .dist], ⟨o, [704]⟩, o.arena.region⟩

/-- It is polled. -/
theorem regions_polled_one : ∃ o os values outs,
    opticsTypedAlloc ⟨true, true⟩ RegistryRuns.fresh.optics ⟨[97], by decide⟩ .dist =
      .ok (some 704, o) ∧
    pollAll htableHash saturating (xorshift saturating) 2 nameH 5 [o] 1 = .ok (os, values) ∧
    LeavesAll saturating (xorshift saturating) [distRegion o] os outs := by
  obtain ⟨o, ho⟩ := RegistryRuns.alloc_fresh
  have hws : ∀ w ∈ [distRegion o], Run saturating (xorshift saturating) w.tr w.s := by
    intro w hw
    rw [List.mem_singleton.mp hw]
    exact .step (.start RegistryRuns.start_fresh) (.alloc ho)
  have hfuel : ∀ w ∈ [distRegion o], w.s.regs.length < 2 := by
    simp [distRegion]
  obtain ⟨hseen, items, hitems, halike⟩ := regions_polled htableHash hws hfuel nameH 5 1
  cases hitems with
  | @cons _ item _ _ hitem hnil =>
    cases hnil
    have hshows := hitem.lenses
    rw [hseen _ List.mem_cons_self rfl] at hshows
    obtain ⟨p, hp⟩ : ∃ p, item.lenses = [p] := by
      rw [← List.length_eq_one_iff, ← hshows.length_eq]
      rfl
    have hone : ∀ u ∈ works nameH 5 [item], workKey u = workKey (pollCtx nameH 5 item, p) := by
      simp [works, hp]
    obtain ⟨outs, values, hpoll⟩ := returns_of_one_key hone 1
    obtain ⟨⟨os, values'⟩, hall, -, hleaves⟩ := halike.returns hpoll
    exact ⟨o, os, values', outs, ho, hall, hleaves⟩

end Optics.RegionPolls
