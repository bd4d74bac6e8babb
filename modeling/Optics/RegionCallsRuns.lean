import Optics.RegionCallsInv

/-! # Runs of processes on shared regions

Any number of processes make, open, grow, close and unlink regions, their steps in any order, any of
the system calls failing, and processes ending anywhere.

* `Inv.step`: every descriptor and mapping has its holder, and no file has two owners;
* `Inv.safe`: no mapping reaches beyond its file, and a region in use has an accepted header. -/

namespace Optics.RegionCalls

open Optics.Base Optics.Lib.Blocks Optics.Lib.Holdings Optics.Lib.Runs
open Optics.Utils.Bits Optics.Regions Optics.Lenses Optics.ShmFiles
open Optics.AllocatorRuns (sizeofHeader blockBase)
open Optics.RegionThreads (Grown Created Grow)

/-! ### The system -/

/-- A process: where it is, and the descriptors and mappings it has given up unreleased. -/
structure Process where
  stage : Stage
  lostFds : List ℕ
  lostMaps : List ℕ

structure State where
  kernel : Kernel
  procs : ℕ → Process

/-- The descriptors of a process. -/
def State.fds (s : State) (i : ℕ) : List ℕ := fdsOf (s.procs i).stage ++ (s.procs i).lostFds

/-- The mappings. -/
def State.maps (s : State) (i : ℕ) : List ℕ := mapsOf (s.procs i).stage ++ (s.procs i).lostMaps

/-- What happens next: a process begins a call, takes a step in one, or ends; another process takes
its number. -/
inductive Act where
  | call (i : ℕ) (r : Request)
  | go (i : ℕ) (sys : Sys)
  | finish (i : ℕ)

/-- A region is grown by slabs, which are shorter than a mapping of the default length. -/
def Act.Slabs (a : Act) : Prop := ∀ i len, a = .call i (.grow len) → len < regionDefaultLen

/-- One step of the system. -/
def act : Act → State → Option State
  | .call i r, s => do
    let stage ← request r (s.procs i).stage
    some { s with procs := Function.update s.procs i { s.procs i with stage := stage } }
  | .go i sys, s => do
    let d ← next sys s.kernel (s.procs i).stage
    let p := s.procs i
    some ⟨d.kernel, Function.update s.procs i
      ⟨d.stage, d.lostFds ++ p.lostFds, d.lostMaps ++ p.lostMaps⟩⟩
  | .finish i, s => do
    let k ← exit (s.fds i) (s.maps i) s.kernel
    some ⟨k, Function.update s.procs i ⟨.idle, [], []⟩⟩

def Step (s s' : State) : Prop := ∃ a : Act, a.Slabs ∧ act a s = some s'

/-- Nobody has begun; there may be any files, of other programs too. -/
structure Start (s : State) : Prop where
  procs : ∀ i, s.procs i = ⟨.idle, [], []⟩
  fds : s.kernel.fds = Heap.empty
  maps : s.kernel.maps = Heap.empty
  fresh : Fresh s.kernel.files
  dir : ∀ name file, s.kernel.dir name = some file → ∃ f, s.kernel.files.cell file = some f

/-- **The invariant.** -/
structure Inv (s : State) : Prop where
  sound : s.kernel.Sound s.fds s.maps
  ok : ∀ i, Ok s.kernel (s.procs i).stage
  owner : ∀ i j file, ownFile s.kernel (s.procs i).stage = some file →
    ownFile s.kernel (s.procs j).stage = some file → i = j

theorem Start.inv {s : State} (h : Start s) : Inv s := by
  have hfds (i : ℕ) : s.fds i = [] := by simp [State.fds, h.procs i, fdsOf]
  have hmaps (i : ℕ) : s.maps i = [] := by simp [State.maps, h.procs i, mapsOf]
  refine ⟨⟨?_, ?_, h.fresh, h.dir, fun fd file hc => ?_, fun m file len hc => ?_⟩, fun i => ?_,
    fun i j file hi => ?_⟩
  · rw [h.fds]
    exact held_empty hfds
  · rw [h.maps]
    exact held_empty hmaps
  · rw [h.fds] at hc
    cases hc
  · rw [h.maps] at hc
    cases hc
  · rw [h.procs i]
    exact .idle
  · rw [h.procs i] at hi
    cases hi

section Steps
variable {s s' : State} {i : ℕ}

theorem Inv.frame (h : Inv s) {k' : Kernel} {j : ℕ} (hj : j ≠ i)
    (ha : Apart s.kernel k' (s.fds i) (s.maps i) (ownFile s.kernel (s.procs i).stage)) :
    Frame s.kernel k' (s.procs j).stage := by
  refine ⟨fun fd hfd => ?_, fun m hm => ?_, ha.files, fun file hown => ?_⟩
  · have hmem : fd ∈ s.fds j := List.mem_append_left _ hfd
    exact ha.fds fd (fun hi => hj (h.sound.fds.unique j i fd hmem hi)) (h.sound.fds.isSome hmem)
  · have hmem : m ∈ s.maps j := List.mem_append_left _ hm
    exact ha.maps m (fun hi => hj (h.sound.maps.unique j i m hmem hi)) (h.sound.maps.isSome hmem)
  · obtain ⟨fd, -, hcell⟩ := Option.bind_eq_some_iff.mp hown
    obtain ⟨f, hf⟩ := h.sound.fd fd file hcell
    exact ha.others file (fun hi => hj (h.owner j i file hown hi))
      (Option.isSome_iff_exists.mpr ⟨f, hf⟩)

/-- **A step of one process** keeps the invariant. -/
theorem Inv.update (h : Inv s) {k' : Kernel} {p : Process} (hok : Ok k' p.stage)
    (hmoves : Moves i s.kernel k' s.fds s.maps (ownFile s.kernel (s.procs i).stage)
      (fdsOf p.stage ++ p.lostFds) (mapsOf p.stage ++ p.lostMaps))
    (hown : ∀ file, ownFile k' p.stage = some file →
      ownFile s.kernel (s.procs i).stage = some file ∨ s.kernel.files.cell file = none) :
    Inv ⟨k', Function.update s.procs i p⟩ := by
  have hframe (j : ℕ) (hj : j ≠ i) := h.frame hj hmoves.apart
  have hother (j : ℕ) (hj : j ≠ i) : Function.update s.procs i p j = s.procs j :=
    Function.update_of_ne hj _ _
  have hfds : State.fds ⟨k', Function.update s.procs i p⟩ =
      Function.update s.fds i (fdsOf p.stage ++ p.lostFds) := by
    funext j
    by_cases hj : j = i
    · simp [State.fds, hj]
    · simp [State.fds, hj]
  have hmaps : State.maps ⟨k', Function.update s.procs i p⟩ =
      Function.update s.maps i (mapsOf p.stage ++ p.lostMaps) := by
    funext j
    by_cases hj : j = i
    · simp [State.maps, hj]
    · simp [State.maps, hj]
  -- the file of the process is its old one, or new
  have hnew {j file : ℕ} (hj : j ≠ i) (hi : ownFile k' p.stage = some file) :
      ownFile s.kernel (s.procs j).stage ≠ some file := by
    intro hc
    rcases hown file hi with hold | hnone
    · exact hj (h.owner j i file hc hold)
    · obtain ⟨fd, -, hcell⟩ := Option.bind_eq_some_iff.mp hc
      obtain ⟨f, hf⟩ := h.sound.fd fd file hcell
      rw [hnone] at hf
      cases hf
  refine ⟨?_, fun j => ?_, fun j l file hj hl => ?_⟩
  · rw [hfds, hmaps]
    exact hmoves.sound
  · by_cases hj : j = i
    · simpa [hj] using hok
    · dsimp only
      rw [hother j hj]
      exact (h.ok j).frame (hframe j hj)
  · dsimp only at hj hl
    by_cases hji : j = i
    · by_cases hli : l = i
      · rw [hji, hli]
      · rw [hji, Function.update_self] at hj
        rw [hother l hli, (hframe l hli).ownFile_eq] at hl
        exact absurd hl (hnew hli hj)
    · rw [hother j hji, (hframe j hji).ownFile_eq] at hj
      by_cases hli : l = i
      · rw [hli, Function.update_self] at hl
        exact absurd hj (hnew hji hl)
      · rw [hother l hli, (hframe l hli).ownFile_eq] at hl
        exact h.owner j l file hj hl

/-- A call of `region_grow` begins, and is done with if the mapping is long enough. -/
theorem request_grow {k : Kernel} {len : ℕ} {h : Handle} {stage' : Stage} (hok : Ok k (.live h))
    (hr : request (.grow len) (.live h) = some stage') (hlt : len < regionDefaultLen) :
    Ok k stage' ∧ fdsOf stage' = [h.fd] ∧ mapsOf stage' = h.vmas ∧
      ownFd stage' = ownFd (.live h) := by
  rw [request] at hr
  split_ifs at hr with howned hfit
  · cases hr
    exact ⟨hok, rfl, rfl, rfl⟩
  all_goals
    have hone : ownFd (.live h) = some h.fd := if_pos (Bool.not_eq_false _ ▸ howned)
    cases hr
    cases hok with | live hl hf hlen => ?_
    cases hl with
    | opened hm n hregion => simp [hregion] at howned
    | owner ho => ?_
  · have hm : Mapped k { h with region := { h.region with pos := w64 (h.region.pos + len) } } _ _ :=
      ⟨ho.mapped.fd, ho.mapped.contents, ho.mapped.vma⟩
    exact ⟨.live (.owner ⟨hm, ho.made.fits hlt hfit, ho.le⟩) hf hlen, rfl, rfl, rfl⟩
  · exact ⟨.growFile ho hf hlen ⟨hlt, hfit⟩, rfl, rfl, hone.symm⟩

theorem named_spec {k : Kernel} (arg : CStr) {stage : CStr → Stage}
    (hok : ∀ name, Ok k (stage name))
    (hfds : ∀ name, fdsOf (stage name) = []) (hmaps : ∀ name, mapsOf (stage name) = [])
    (hown : ∀ name, ownFd (stage name) = none) : Ok k (named arg stage) ∧
      fdsOf (named arg stage) = [] ∧ mapsOf (named arg stage) = [] ∧
      ownFd (named arg stage) = none := by
  unfold named
  split
  · exact ⟨.idle, rfl, rfl, rfl⟩
  · exact ⟨hok _, hfds _, hmaps _, hown _⟩

theorem request_spec {k : Kernel} {r : Request} {stage stage' : Stage} (hok : Ok k stage)
    (hr : request r stage = some stage') (hslab : ∀ len, r = .grow len → len < regionDefaultLen) :
    Ok k stage' ∧ fdsOf stage' = fdsOf stage ∧ mapsOf stage' = mapsOf stage ∧
      (ownFd stage' = none ∨ ownFd stage' = ownFd stage) := by
  cases stage with
  | idle =>
    have hnamed : ∃ (arg : CStr) (f : CStr → Stage), stage' = named arg f ∧
        (∀ name, Ok k (f name)) ∧ (∀ name, fdsOf (f name) = []) ∧ (∀ name, mapsOf (f name) = []) ∧
        ∀ name, ownFd (f name) = none := by
      cases r with
      | create arg =>
        exact ⟨arg, _, (Option.some.inj hr).symm, fun _ => .wipe, fun _ => rfl, fun _ => rfl,
          fun _ => rfl⟩
      | openAt arg =>
        exact ⟨arg, _, (Option.some.inj hr).symm, fun _ => .openFile, fun _ => rfl, fun _ => rfl,
          fun _ => rfl⟩
      | unlink arg =>
        exact ⟨arg, _, (Option.some.inj hr).symm, fun _ => .unlink, fun _ => rfl, fun _ => rfl,
          fun _ => rfl⟩
      | grow len => cases hr
      | close => cases hr
    obtain ⟨arg, f, rfl, hok', hfds, hmaps, hown⟩ := hnamed
    obtain ⟨hok', hfds, hmaps, hown⟩ := named_spec arg hok' hfds hmaps hown
    exact ⟨hok', hfds, hmaps, Or.inl hown⟩
  | live h =>
    cases r with
    | grow len =>
      obtain ⟨hok', hfds, hmaps, hown⟩ := request_grow hok hr (hslab len rfl)
      exact ⟨hok', hfds, hmaps, Or.inr hown⟩
    | close =>
      cases hr
      exact ⟨.unmap, rfl, rfl, Or.inl rfl⟩
    | create arg => cases hr
    | openAt arg => cases hr
    | unlink arg => cases hr
  | _ => cases r <;> cases hr

/-- **A step keeps the invariant.** -/
theorem Inv.step (h : Inv s) (hstep : Step s s') : Inv s' := by
  obtain ⟨a, hslab, ha⟩ := hstep
  cases a with
  | call i r =>
    obtain ⟨stage, hr, hs'⟩ := Option.bind_eq_some_iff.mp ha
    cases hs'
    obtain ⟨hok, hfds, hmaps, hown⟩ :=
      request_spec (h.ok i) hr fun len hlen => hslab i len (hlen ▸ rfl)
    refine h.update hok (h.sound.refl ?_ ?_) fun file hfile => ?_
    · rw [hfds]
      exact .refl _
    · rw [hmaps]
      exact .refl _
    · rcases hown with hown | hown
      · simp [ownFile, hown] at hfile
      · rw [ownFile, hown] at hfile
        exact Or.inl hfile
  | go i sys =>
    obtain ⟨d, hd, hs'⟩ := Option.bind_eq_some_iff.mp ha
    cases hs'
    have hidle : (s.procs i).stage ≠ .idle := by
      intro hc
      rw [hc] at hd
      cases hd
    have hlive (x : Handle) : (s.procs i).stage ≠ .live x := by
      intro hc
      rw [hc] at hd
      cases hd
    obtain ⟨d', hd', hdoes⟩ := next_spec h.sound (h.ok i) rfl rfl hidle hlive sys
    cases hd.symm.trans hd'
    exact h.update hdoes.ok hdoes.moves hdoes.own
  | finish i =>
    obtain ⟨k', hk, hs'⟩ := Option.bind_eq_some_iff.mp ha
    cases hs'
    obtain ⟨k'', hk', -, hmoves⟩ := moves_exit (i := i) _ h.sound
    cases hk.symm.trans hk'
    exact h.update .idle hmoves fun file hfile => by cases hfile

theorem inv_of_reachable (h : Reachable Start Step s) : Inv s :=
  h.invariant (fun _ hs => hs.inv) fun _ _ hs hstep => hs.step hstep

/-! ### Safety -/

/-- A region in use: its newest mapping is one of its file, whose header is accepted; its fields are
those of a region that was made and grown, or opened, and what `region_ptr` gives lies in the
file. -/
structure InUse (k : Kernel) (h : Handle) : Prop where
  mapped : ∃ file f, Mapped k h file f ∧ Accepted f ∧ sizeofHeader ≤ f.len ∧
    (MadeBy h.region f.len ∨ ∃ n ≤ f.len, h.region = ⟨false, 0, n, n⟩) ∧
    ∀ off len p, off + len < 2 ^ 64 → regionPtr h.region off len = some p → p + len ≤ f.len

/-- What holds whatever the processes have done. -/
structure Safe (s : State) : Prop where
  /-- a process in a call gets on, whatever its system call returns -/
  runs : ∀ i, (s.procs i).stage ≠ .idle → (∀ h, (s.procs i).stage ≠ .live h) → ∀ sys,
    ∃ s', act (.go i sys) s = some s'
  finishes : ∀ i, ∃ s', act (.finish i) s = some s'
  /-- descriptors and mappings have one holder each -/
  fds : ∀ fd, (s.kernel.fds.cell fd).isSome ↔ ∃! i, fd ∈ s.fds i
  maps : ∀ m, (s.kernel.maps.cell m).isSome ↔ ∃! i, m ∈ s.maps i
  inside : ∀ m file len, s.kernel.maps.cell m = some (file, len) →
    ∃ f, s.kernel.files.cell file = some f ∧ len ≤ f.len
  owner : ∀ i j file, ownFile s.kernel (s.procs i).stage = some file →
    ownFile s.kernel (s.procs j).stage = some file → i = j
  inUse : ∀ i h, (s.procs i).stage = .live h → InUse s.kernel h

theorem Mapped.len_le {k : Kernel} {h : Handle} {file : ℕ} {f : ShmFile} {fds maps : ℕ → List ℕ}
    (hm : Mapped k h file f) (hs : k.Sound fds maps) : h.region.vmaLen ≤ f.len := by
  obtain ⟨m, vmas, -, hcell⟩ := hm.vma
  obtain ⟨f', hf', hle⟩ := hs.map _ _ _ hcell
  cases hm.contents.symm.trans hf'
  exact hle

theorem Inv.inUse (hinv : Inv s) {h : Handle} (hlive : (s.procs i).stage = .live h) :
    InUse s.kernel h := by
  have hok := hinv.ok i
  rw [hlive] at hok
  cases hok with | @live _ file f hl hf hlen => ?_
  obtain ⟨hm, hpos, hregion⟩ : Mapped s.kernel h file f ∧ h.region.pos ≤ h.region.vmaLen ∧
      (MadeBy h.region f.len ∨ ∃ n ≤ f.len, h.region = ⟨false, 0, n, n⟩) := by
    cases hl with
    | owner ho =>
      obtain ⟨file', howner, -⟩ := ho.made.owner
      exact ⟨ho.mapped, howner.pos_le, Or.inl ho.made⟩
    | opened hm n hr =>
      have hle := hm.len_le hinv.sound
      rw [hr] at hle ⊢
      exact ⟨hm, le_rfl, Or.inr ⟨n, hle, rfl⟩⟩
  have hle := hm.len_le hinv.sound
  refine ⟨file, f, hm, hf, hlen, hregion, fun off len p hoff hp => ?_⟩
  have hptr := regionPtr_eq_some hp
  have hin := (regionPtr_isSome hoff).mp (Option.isSome_iff_exists.mpr ⟨p, hp⟩)
  omega

theorem existsUnique_of_held {α : Type*} {h : Heap α} {held : ℕ → List ℕ} (hh : Held h held)
    (p : ℕ) : (h.cell p).isSome ↔ ∃! i, p ∈ held i := by
  rw [hh.live]
  constructor
  · rintro ⟨i, hi⟩
    exact ⟨i, hi, fun j hj => hh.unique j i p hj hi⟩
  · rintro ⟨i, hi, -⟩
    exact ⟨i, hi⟩

theorem Inv.safe (hinv : Inv s) : Safe s where
  runs i hidle hlive sys := by
    obtain ⟨d, hd, -⟩ := next_spec hinv.sound (hinv.ok i) rfl rfl hidle hlive sys
    exact ⟨_, by rw [act, hd]; rfl⟩
  finishes i := by
    obtain ⟨k', hk, -⟩ := moves_exit (i := i) none hinv.sound
    exact ⟨_, by rw [act, hk]; rfl⟩
  fds := existsUnique_of_held hinv.sound.fds
  maps := existsUnique_of_held hinv.sound.maps
  inside := hinv.sound.map
  owner := hinv.owner
  inUse i h hlive := hinv.inUse hlive

end Steps

end Optics.RegionCalls
