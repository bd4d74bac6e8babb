import Optics.RegionCallsRuns

/-! # Names and what is given up

What the steps of a process do to the names, and when they give up a descriptor or a mapping without
releasing it.

* `region_calls_safe`: the safety of all runs, and that nothing is left behind by processes that are
  in no call if neither `munmap` nor `close` fails;
* `region_names`: the name of a region leads to its file while nobody else makes or unlinks that
  name; a second creator takes it away. -/

namespace Optics.RegionCalls

open Optics.Base Optics.Lib.Blocks Optics.Lib.Holdings Optics.Lib.Runs
open Optics.Utils.Bits Optics.Regions Optics.Lenses Optics.ShmFiles

/-! ### Stages -/

/-- The next call is `munmap` or `close`. -/
def releasing : Stage → Bool
  | .undo _ _ | .drop _ | .unmap _ (_ :: _) | .closeFd _ => true
  | _ => false

/-- The name of the file that the process has made and not unlinked yet, and the descriptor. -/
def made : Stage → Option (CStr × ℕ)
  | .truncate _ name fd | .map _ name fd | .undo name fd => some (name, fd)
  | .magic _ h | .version _ h | .growFile h _ | .growMap h _ _ => some (h.name, h.fd)
  | .check h | .checkVersion h | .live h | .unmap h _ | .closeFd h =>
    if h.region.owned then some (h.name, h.fd) else none
  | _ => none

/-- The name that the process makes, has made and not unlinked yet, or unlinks. -/
def busy : Stage → Option CStr
  | .wipe _ name | .create _ name | .unlink name => some name
  | stage => (made stage).map Prod.fst

theorem busy_of_made {stage : Stage} {name : CStr} {fd : ℕ} (h : made stage = some (name, fd)) :
    busy stage = some name := by
  cases stage with
  | wipe arg name => cases h
  | create arg name => cases h
  | unlink name => cases h
  | _ => simp [busy, h]

/-! ### What a step leaves alone -/

/-- No name is changed, and no descriptor is new. -/
structure Quiet (k k' : Kernel) : Prop where
  dir : k'.dir = k.dir
  fds : ∀ fd file, k'.fds.cell fd = some file → k.fds.cell fd = some file

/-- What a step does to the names, and what it gives up. -/
structure Log (sys : Sys) (k : Kernel) (stage : Stage) (d : Done) : Prop where
  names : ∀ name, busy stage ≠ some name → d.kernel.dir name = k.dir name
  made : ∀ name fd file, made d.stage = some (name, fd) → d.kernel.fds.cell fd = some file →
    d.kernel.dir name = some file ∨
      (made stage = some (name, fd) ∧ k.fds.cell fd = some file ∧ d.kernel.dir = k.dir)
  lost : (releasing stage = true → sys.ok = true) → d.lostFds = [] ∧ d.lostMaps = []

section Calls
variable {sys : Sys} {k k' : Kernel}

theorem Quiet.refl (k : Kernel) : Quiet k k := ⟨rfl, fun _ _ h => h⟩

theorem quiet_ftruncate {fd len : ℕ} {ok : Bool} (h : ftruncate sys fd len k = some (ok, k')) :
    Quiet k k' := by
  obtain ⟨file, -, h⟩ := Option.bind_eq_some_iff.mp h
  obtain ⟨f, -, h⟩ := Option.bind_eq_some_iff.mp h
  split_ifs at h
  · cases h
    exact ⟨rfl, fun _ _ hc => hc⟩
  · cases h
    exact Quiet.refl k

theorem quiet_mmap {fd len : ℕ} {m : Option ℕ} (h : mmap sys fd len k = some (m, k')) :
    Quiet k k' := by
  obtain ⟨file, -, h⟩ := Option.bind_eq_some_iff.mp h
  split_ifs at h
  · cases h
    exact ⟨rfl, fun _ _ hc => hc⟩
  · cases h
    exact Quiet.refl k

theorem quiet_munmap {m : ℕ} {ok : Bool} (h : munmap sys m k = some (ok, k')) :
    Quiet k k' ∧ ok = sys.ok := by
  obtain ⟨x, -, h⟩ := Option.bind_eq_some_iff.mp h
  split_ifs at h with hok
  · obtain ⟨maps, -, h⟩ := Option.bind_eq_some_iff.mp h
    cases h
    exact ⟨⟨rfl, fun _ _ hc => hc⟩, hok.symm⟩
  · cases h
    exact ⟨Quiet.refl k, by simpa using hok⟩

theorem quiet_close {fd : ℕ} {ok : Bool} (h : close sys fd k = some (ok, k')) :
    Quiet k k' ∧ ok = sys.ok := by
  obtain ⟨x, -, h⟩ := Option.bind_eq_some_iff.mp h
  split_ifs at h with hkept
  · cases h
    exact ⟨Quiet.refl k, hkept.1.symm⟩
  · obtain ⟨fds, hfree, h⟩ := Option.bind_eq_some_iff.mp h
    cases h
    exact ⟨⟨rfl, fun _ _ hc => cell_of_free hfree hc⟩, rfl⟩

theorem quiet_setHeader {m : ℕ} {g : ShmFile → ShmFile} (h : setHeader m g k = some k') :
    Quiet k k' := by
  obtain ⟨x, -, h⟩ := Option.bind_eq_some_iff.mp h
  obtain ⟨f, -, h⟩ := Option.bind_eq_some_iff.mp h
  cases h
  exact ⟨rfl, fun _ _ hc => hc⟩

theorem Quiet.log (hq : Quiet k k') {stage stage' : Stage} {lostFds lostMaps : List ℕ}
    (hmade : made stage' = none ∨ made stage' = made stage)
    (hlost : (releasing stage = true → sys.ok = true) → lostFds = [] ∧ lostMaps = []) :
    Log sys k stage ⟨stage', k', lostFds, lostMaps⟩ where
  names name _ := congrFun hq.dir name
  made name fd file hm hfile := by
    rcases hmade with hnone | hsame
    · simp [hnone] at hm
    · exact Or.inr ⟨hsame ▸ hm, hq.fds fd file hfile, hq.dir⟩
  lost := hlost

theorem keptFd_of_ok (h : sys.ok = true) (fd : ℕ) : keptFd sys fd = [] := by
  simp [keptFd, h]

variable {stage : Stage} {d : Done} {name arg : CStr} {h : Handle}

theorem log_unlink (sys : Sys) (k : Kernel) (hbusy : busy stage = some name) {stage' : Stage}
    (hmade : made stage' = none) : Log sys k stage (.to stage' (shmUnlink sys name k)) where
  names n hn := by
    have hne : n ≠ name := fun hc => hn (hc ▸ hbusy)
    unfold shmUnlink
    split_ifs
    · exact Function.update_of_ne hne _ _
    · rfl
  made n fd file hm _ := by
    rw [Done.to, hmade] at hm
    cases hm
  lost _ := ⟨rfl, rfl⟩

theorem log_create (hd : next sys k (.create arg name) = some d) :
    Log sys k (.create arg name) d := by
  rw [next] at hd
  unfold shmCreate at hd
  split_ifs at hd
  · cases hd
    exact (Quiet.refl k).log (.inl rfl) fun _ => ⟨rfl, rfl⟩
  · cases hd
    refine ⟨fun n hn => ?_, fun n fd file hm hfile => Or.inl ?_, fun _ => ⟨rfl, rfl⟩⟩
    · have hne : n ≠ name := by
        rintro rfl
        exact hn rfl
      exact Function.update_of_ne hne _ _
    · cases hm
      cases (alloc_cell k.fds k.files.next).symm.trans hfile
      exact Function.update_self _ _ _

theorem log_openFile (hd : next sys k (.openFile name) = some d) :
    Log sys k (.openFile name) d := by
  rw [next] at hd
  split at hd
  · cases hd
    exact (Quiet.refl k).log (.inl rfl) fun _ => ⟨rfl, rfl⟩
  · rename_i fd k' hc
    cases hd
    have hdir : k'.dir = k.dir := by
      unfold shmOpen at hc
      split at hc
      · cases hc
      · split_ifs at hc
        cases hc
        rfl
    refine ⟨fun n _ => congrFun hdir n, fun n fd file hm => ?_, fun _ => ⟨rfl, rfl⟩⟩
    cases hm

theorem log_growFile {len : ℕ} (hd : next sys k (.growFile h len) = some d) :
    Log sys k (.growFile h len) d := by
  have hlive : made (.live h) = none ∨ made (.live h) = made (.growFile h len) := by
    by_cases ho : h.region.owned <;> simp [made, ho]
  rw [next, growStep] at hd
  split at hd
  · cases hd
  · split_ifs at hd
    · cases hd
      exact (Quiet.refl k).log hlive fun _ => ⟨rfl, rfl⟩
    · obtain ⟨⟨ok, k'⟩, hc, hd⟩ := Option.bind_eq_some_iff.mp hd
      cases hd
      refine (quiet_ftruncate hc).log ?_ fun _ => ⟨rfl, rfl⟩
      cases ok with
      | false => exact hlive
      | true => exact .inr rfl

theorem log_growMap {len newLen : ℕ} (hd : next sys k (.growMap h len newLen) = some d) :
    Log sys k (.growMap h len newLen) d := by
  obtain ⟨⟨m, k'⟩, hc, hd⟩ := Option.bind_eq_some_iff.mp hd
  cases m with
  | none =>
    cases hd
    refine (quiet_mmap hc).log ?_ fun _ => ⟨rfl, rfl⟩
    by_cases ho : h.region.owned <;> simp [made, ho]
  | some m =>
    cases hd
    refine (quiet_mmap hc).log ?_ fun _ => ⟨rfl, rfl⟩
    by_cases ho : h.region.owned <;> simp [made, ho]

theorem log_unmap {vmas : List ℕ} (hd : next sys k (.unmap h vmas) = some d) :
    Log sys k (.unmap h vmas) d := by
  cases vmas with
  | nil =>
    cases hd
    exact (Quiet.refl k).log (.inr rfl) fun _ => ⟨rfl, rfl⟩
  | cons m vmas =>
    obtain ⟨⟨ok, k'⟩, hc, hd⟩ := Option.bind_eq_some_iff.mp hd
    obtain ⟨hquiet, hok⟩ := quiet_munmap hc
    cases hd
    cases ok with
    | false => exact hquiet.log (.inl rfl) fun hlost => by simp [hlost rfl] at hok
    | true => exact hquiet.log (.inr rfl) fun _ => ⟨rfl, rfl⟩

theorem log_closeFd (hd : next sys k (.closeFd h) = some d) : Log sys k (.closeFd h) d := by
  obtain ⟨⟨ok, k'⟩, hc, hd⟩ := Option.bind_eq_some_iff.mp hd
  obtain ⟨hquiet, hok⟩ := quiet_close hc
  cases ok with
  | false =>
    cases hd
    exact hquiet.log (.inl rfl) fun hlost => by simp [hlost rfl] at hok
  | true =>
    cases hd
    refine hquiet.log (.inl ?_) fun _ => ⟨rfl, rfl⟩
    by_cases ho : h.region.owned <;> simp [made, ho]

/-- **What a step does to the names**, and that it gives nothing up unless `munmap` or `close`
fails. -/
theorem next_log (hd : next sys k stage = some d) : Log sys k stage d := by
  cases stage with
  | idle => cases hd
  | live h => cases hd
  | wipe arg name =>
    cases hd
    exact log_unlink sys k rfl rfl
  | unlink name =>
    cases hd
    exact log_unlink sys k rfl rfl
  | create arg name => exact log_create hd
  | openFile name => exact log_openFile hd
  | growFile h len => exact log_growFile hd
  | growMap h len newLen => exact log_growMap hd
  | unmap h vmas => exact log_unmap hd
  | closeFd h => exact log_closeFd hd
  | truncate arg name fd =>
    obtain ⟨⟨ok, k'⟩, hc, hd⟩ := Option.bind_eq_some_iff.mp hd
    cases hd
    refine (quiet_ftruncate hc).log (.inr ?_) fun _ => ⟨rfl, rfl⟩
    cases ok <;> rfl
  | map arg name fd =>
    obtain ⟨⟨m, k'⟩, hc, hd⟩ := Option.bind_eq_some_iff.mp hd
    cases m <;> cases hd <;> exact (quiet_mmap hc).log (.inr rfl) fun _ => ⟨rfl, rfl⟩
  | undo name fd =>
    obtain ⟨⟨ok, k'⟩, hc, hd⟩ := Option.bind_eq_some_iff.mp hd
    cases hd
    exact (quiet_close hc).1.log (.inl rfl) fun hlost => ⟨keptFd_of_ok (hlost rfl) fd, rfl⟩
  | drop fd =>
    obtain ⟨⟨ok, k'⟩, hc, hd⟩ := Option.bind_eq_some_iff.mp hd
    cases hd
    exact (quiet_close hc).1.log (.inl rfl) fun hlost => ⟨keptFd_of_ok (hlost rfl) fd, rfl⟩
  | magic arg h =>
    have hmade : made (.unmap h h.vmas) = none ∨ made (.unmap h h.vmas) = made (.magic arg h) := by
      by_cases ho : h.region.owned <;> simp [made, ho]
    rw [next] at hd
    split at hd
    · cases hd
      exact (Quiet.refl k).log hmade fun _ => ⟨rfl, rfl⟩
    · obtain ⟨k', hc, hd⟩ := Option.bind_eq_some_iff.mp hd
      cases hd
      exact (quiet_setHeader hc).log (.inr rfl) fun _ => ⟨rfl, rfl⟩
  | version arg h =>
    obtain ⟨k', hc, hd⟩ := Option.bind_eq_some_iff.mp hd
    split_ifs at hd <;> cases hd <;> refine (quiet_setHeader hc).log ?_ fun _ => ⟨rfl, rfl⟩
    all_goals by_cases ho : h.region.owned <;> simp [made, ho]
  | stat name fd =>
    obtain ⟨len, hc, hd⟩ := Option.bind_eq_some_iff.mp hd
    cases len <;> cases hd <;> exact (Quiet.refl k).log (.inl rfl) fun _ => ⟨rfl, rfl⟩
  | mapOpen name fd len =>
    obtain ⟨⟨m, k'⟩, hc, hd⟩ := Option.bind_eq_some_iff.mp hd
    cases m <;> cases hd <;> exact (quiet_mmap hc).log (.inl rfl) fun _ => ⟨rfl, rfl⟩
  | check h =>
    rw [next] at hd
    split at hd
    · cases hd
      exact (Quiet.refl k).log (.inr rfl) fun _ => ⟨rfl, rfl⟩
    · obtain ⟨f, -, hd⟩ := Option.bind_eq_some_iff.mp hd
      cases hd
      refine (Quiet.refl k).log (.inr ?_) fun _ => ⟨rfl, rfl⟩
      split_ifs <;> rfl
  | checkVersion h =>
    obtain ⟨f, -, hd⟩ := Option.bind_eq_some_iff.mp hd
    cases hd
    refine (Quiet.refl k).log (.inr ?_) fun _ => ⟨rfl, rfl⟩
    split_ifs <;> rfl

end Calls

/-! ### Nothing left behind -/

/-- The step is no `munmap` or `close` that fails. -/
def Act.Releases (a : Act) (s : State) : Prop :=
  ∀ i sys, a = .go i sys → releasing (s.procs i).stage = true → sys.ok = true

/-- Steps in which neither `munmap` nor `close` fails. -/
def ReleasingStep (s s' : State) : Prop := ∃ a : Act, a.Slabs ∧ a.Releases s ∧ act a s = some s'

section Runs
variable {s s' : State} {i : ℕ}

theorem lost_step (hstep : ReleasingStep s s')
    (hs : ∀ i, (s.procs i).lostFds = [] ∧ (s.procs i).lostMaps = []) (i : ℕ) :
    (s'.procs i).lostFds = [] ∧ (s'.procs i).lostMaps = [] := by
  obtain ⟨a, -, hreleases, ha⟩ := hstep
  cases a with
  | call j r =>
    obtain ⟨stage, -, hs'⟩ := Option.bind_eq_some_iff.mp ha
    cases hs'
    by_cases hi : i = j
    · simp [hi, hs j]
    · simp [hi, hs i]
  | go j sys =>
    obtain ⟨d, hd, hs'⟩ := Option.bind_eq_some_iff.mp ha
    cases hs'
    obtain ⟨hfds, hmaps⟩ := (next_log hd).lost (hreleases j sys rfl)
    by_cases hi : i = j
    · simp [hi, hs j, hfds, hmaps]
    · simp [hi, hs i]
  | finish j =>
    obtain ⟨k', -, hs'⟩ := Option.bind_eq_some_iff.mp ha
    cases hs'
    by_cases hi : i = j
    · simp [hi]
    · simp [hi, hs i]

/-- A process in no call holds nothing, if neither `munmap` nor `close` has failed. -/
theorem released (h : Reachable Start ReleasingStep s) (hidle : (s.procs i).stage = .idle) :
    s.fds i = [] ∧ s.maps i = [] := by
  have hlost := h.invariant
    (I := fun s => ∀ i, (s.procs i).lostFds = [] ∧ (s.procs i).lostMaps = [])
    (fun s0 h0 i => by simp [h0.procs i]) fun s1 s2 h1 hstep => lost_step hstep h1
  simp [State.fds, State.maps, hidle, fdsOf, mapsOf, hlost i]

/-- **Regions are safe in every run**, the steps of the processes in any order and any system calls
failing; and if neither `munmap` nor `close` fails, processes that are in no call have left neither
descriptors nor mappings behind. -/
theorem region_calls_safe : (∀ s, Reachable Start Step s → Safe s) ∧
    ∀ s, Reachable Start ReleasingStep s → ∀ i, (s.procs i).stage = .idle →
      s.fds i = [] ∧ s.maps i = [] :=
  ⟨fun _ h => (inv_of_reachable h).safe, fun _ h _ hidle => released h hidle⟩

/-! ### Names -/

/-- No process makes or unlinks a name while another one is at it, or has the region it made. -/
def Exclusive (s : State) : Prop :=
  ∀ i j name, busy (s.procs i).stage = some name → busy (s.procs j).stage = some name → i = j

/-- A step where that is so. -/
def ExclusiveStep (s s' : State) : Prop := Exclusive s ∧ Step s s'

/-- The names of the regions that processes have made lead to their files. -/
def Named (s : State) : Prop := ∀ i name fd file, made (s.procs i).stage = some (name, fd) →
  s.kernel.fds.cell fd = some file → s.kernel.dir name = some file

theorem request_made {r : Request} {stage stage' : Stage} (hr : request r stage = some stage') :
    made stage' = none ∨ made stage' = made stage := by
  cases stage with
  | idle =>
    have hnamed {arg : CStr} {f : CStr → Stage} (hf : ∀ name, made (f name) = none) :
        made (named arg f) = none := by
      unfold named
      split
      · rfl
      · exact hf _
    cases r with
    | create arg => exact Or.inl (Option.some.inj hr ▸ hnamed fun _ => rfl)
    | openAt arg => exact Or.inl (Option.some.inj hr ▸ hnamed fun _ => rfl)
    | unlink arg => exact Or.inl (Option.some.inj hr ▸ hnamed fun _ => rfl)
    | grow len => cases hr
    | close => cases hr
  | live h =>
    cases r with
    | grow len =>
      rw [request] at hr
      split_ifs at hr with howned hfit
      · cases hr
        exact Or.inr rfl
      · cases hr
        exact Or.inr rfl
      · cases hr
        exact Or.inr (if_pos (by simpa using howned)).symm
    | close =>
      cases hr
      exact Or.inr rfl
    | create arg => cases hr
    | openAt arg => cases hr
    | unlink arg => cases hr
  | _ => cases r <;> cases hr

theorem made_mem {stage : Stage} {name : CStr} {fd : ℕ} (h : made stage = some (name, fd)) :
    fd ∈ fdsOf stage := by
  cases stage with
  | idle => cases h
  | wipe arg name => cases h
  | create arg name => cases h
  | openFile name => cases h
  | stat name fd => cases h
  | mapOpen name fd len => cases h
  | drop fd => cases h
  | unlink name => cases h
  | _ => simp_all [made, fdsOf]

/-- **Names are kept by a step of one process** that changes none that others have made. -/
theorem Inv.named_update (h : Inv s) (hn : Named s) {k' : Kernel} {p : Process}
    (ha : Apart s.kernel k' (s.fds i) (s.maps i) (ownFile s.kernel (s.procs i).stage))
    (hdir : ∀ j name, j ≠ i → busy (s.procs j).stage = some name → k'.dir name = s.kernel.dir name)
    (hi : ∀ name fd file, made p.stage = some (name, fd) → k'.fds.cell fd = some file →
      k'.dir name = some file) : Named ⟨k', Function.update s.procs i p⟩ := by
  intro j name fd file hm hfile
  dsimp only at hm hfile ⊢
  by_cases hj : j = i
  · rw [hj, Function.update_self] at hm
    exact hi name fd file hm hfile
  · rw [Function.update_of_ne hj] at hm
    have hsame := (h.frame hj ha).fds fd (made_mem hm)
    rw [hdir j name hj (busy_of_made hm)]
    exact hn j name fd file hm (hsame ▸ hfile)

theorem Inv.named_step (h : Inv s) (hn : Named s) (hstep : ExclusiveStep s s') : Named s' := by
  obtain ⟨hex, a, -, ha⟩ := hstep
  cases a with
  | call i r =>
    obtain ⟨stage, hr, hs'⟩ := Option.bind_eq_some_iff.mp ha
    cases hs'
    have hapart : Apart s.kernel s.kernel (s.fds i) (s.maps i)
        (ownFile s.kernel (s.procs i).stage) :=
      ⟨fun _ _ _ => rfl, fun _ _ _ => rfl, fun _ f hf => ⟨f, hf, Grows.refl f⟩, fun _ _ _ => rfl⟩
    refine h.named_update hn hapart (fun _ _ _ _ => rfl) fun name fd file hm hfile => ?_
    rcases request_made hr with hnone | hsame
    · simp [hnone] at hm
    · exact hn i name fd file (hsame ▸ hm) hfile
  | go i sys =>
    obtain ⟨d, hd, hs'⟩ := Option.bind_eq_some_iff.mp ha
    cases hs'
    have hidle : (s.procs i).stage ≠ .idle := by
      intro hc
      rw [hc] at hd
      cases hd
    have hlive (x : Handle) : (s.procs i).stage ≠ .live x := by
      intro hc
      rw [hc] at hd
      cases hd
    obtain ⟨d', hd', hdoes⟩ := next_spec h.sound (h.ok i) rfl rfl hidle hlive sys
    cases hd.symm.trans hd'
    have hlog := next_log hd
    refine h.named_update hn hdoes.moves.apart (fun j name hj hbusy => ?_)
      fun name fd file hm hfile => ?_
    · exact hlog.names name fun hc => hj (hex j i name hbusy hc)
    · rcases hlog.made name fd file hm hfile with hnew | ⟨hold, hfd, hdir⟩
      · exact hnew
      · rw [hdir]
        exact hn i name fd file hold hfd
  | finish i =>
    obtain ⟨k', hk, hs'⟩ := Option.bind_eq_some_iff.mp ha
    cases hs'
    obtain ⟨k'', hk', hdir, hmoves⟩ := moves_exit (i := i) _ h.sound
    cases hk.symm.trans hk'
    refine h.named_update hn hmoves.apart (fun _ name _ _ => congrFun hdir name) ?_
    intro name fd file hm
    cases hm

theorem shmOpen_named {sys : Sys} {name : CStr} {k k' : Kernel} {fd file : ℕ}
    (h : shmOpen sys name k = some (fd, k')) (hdir : k.dir name = some file) :
    k'.fds.cell fd = some file := by
  unfold shmOpen at h
  rw [hdir] at h
  dsimp only at h
  split_ifs at h
  cases h
  exact alloc_cell _ _

theorem named_of_reachable (h : Reachable Start ExclusiveStep s) : Inv s ∧ Named s := by
  have hstart (s0 : State) (h0 : Start s0) : Named s0 := by
    intro j name fd file hm
    rw [h0.procs j] at hm
    cases hm
  exact h.invariant (I := fun s => Inv s ∧ Named s) (fun s0 h0 => ⟨h0.inv, hstart s0 h0⟩)
    fun _ _ h1 hstep => ⟨h1.1.step hstep.2, h1.1.named_step h1.2 hstep⟩

/-- Acts one after the other. -/
def runActs : List Act → State → Option State
  | [], s => some s
  | a :: acts, s => (act a s).bind (runActs acts)

theorem reachable_runActs : ∀ {acts : List Act} {s : State}, Reachable Start Step s →
    (∀ a ∈ acts, a.Slabs) → runActs acts s = some s' → Reachable Start Step s'
  | [], s, h, _, hrun => by
    cases hrun
    exact h
  | a :: acts, s, h, hslabs, hrun => by
    rw [List.forall_mem_cons] at hslabs
    obtain ⟨s1, hact, hrest⟩ := Option.bind_eq_some_iff.mp hrun
    exact reachable_runActs (h.tail ⟨a, hslabs.1, hact⟩) hslabs.2 hrest

/-- A system without files. -/
def State.empty : State :=
  ⟨⟨fun _ => none, Heap.empty, Heap.empty, Heap.empty⟩, fun _ => ⟨.idle, [], []⟩⟩

theorem start_empty : Start State.empty where
  procs _ := rfl
  fds := rfl
  maps := rfl
  fresh := fresh_empty
  dir _ _ h := by cases h

/-- A process makes the region with the empty name. -/
def creation (i : ℕ) : List Act :=
  .call i (.create CStr.empty) :: List.replicate 6 (.go i ⟨true, true⟩)

/-- Two processes make it, and the first one closes its own. -/
def twoCreators : List Act :=
  creation 0 ++ creation 1 ++ .call 0 .close :: List.replicate 4 (.go 0 ⟨true, true⟩)

theorem twoCreators_slabs : ∀ a ∈ twoCreators, a.Slabs := by
  intro a ha i len hgrow
  simp [twoCreators, creation, hgrow] at ha

/-- **A region is found under its name**: while nobody makes or unlinks the name of another process,
the name of a region leads to its file from when it is made until it is unlinked, and whoever opens
the name gets that file. Otherwise the name of a region in use may be gone, for `region_create` and
`region_close` unlink whatever has the name. -/
theorem region_names : (∀ s, Reachable Start ExclusiveStep s → ∀ i name fd file,
      made (s.procs i).stage = some (name, fd) → s.kernel.fds.cell fd = some file →
      s.kernel.dir name = some file ∧ ∀ sys fd' k',
        shmOpen sys name s.kernel = some (fd', k') → k'.fds.cell fd' = some file) ∧
    ∃ s h, Reachable Start Step s ∧ (s.procs 1).stage = .live h ∧ h.region.owned = true ∧
      s.kernel.dir h.name = none := by
  constructor
  · intro s h i name fd file hm hfile
    have hdir := (named_of_reachable h).2 i name fd file hm hfile
    exact ⟨hdir, fun sys fd' k' hopen => shmOpen_named hopen hdir⟩
  · obtain ⟨s, hrun, h, hlive, howned, hdir⟩ : ∃ s, runActs twoCreators State.empty = some s ∧
        ∃ h, (s.procs 1).stage = .live h ∧ h.region.owned = true ∧ s.kernel.dir h.name = none :=
      ⟨_, rfl, _, rfl, rfl, rfl⟩
    have hreach := reachable_runActs (.of_start start_empty) twoCreators_slabs hrun
    exact ⟨s, h, hreach, hlive, howned, hdir⟩

/-- Two creators of one name, one of them closed. -/
theorem region_calls_safe_two : ∃ s, runActs twoCreators State.empty = some s ∧ Safe s :=
  ⟨_, rfl, region_calls_safe.1 _
    (reachable_runActs (.of_start start_empty) twoCreators_slabs rfl)⟩

/-- The process that acts. -/
def Act.proc : Act → ℕ
  | .call i _ | .go i _ | .finish i => i

theorem act_others {a : Act} (h : act a s = some s') {j : ℕ} (hj : j ≠ a.proc) :
    s'.procs j = s.procs j := by
  cases a with
  | call i r =>
    obtain ⟨stage, -, hs'⟩ := Option.bind_eq_some_iff.mp h
    cases hs'
    exact Function.update_of_ne hj _ _
  | go i sys =>
    obtain ⟨d, -, hs'⟩ := Option.bind_eq_some_iff.mp h
    cases hs'
    exact Function.update_of_ne hj _ _
  | finish i =>
    obtain ⟨k', -, hs'⟩ := Option.bind_eq_some_iff.mp h
    cases hs'
    exact Function.update_of_ne hj _ _

/-- Nobody but the process `i` is in a call or has a region. -/
def Alone (i : ℕ) (s : State) : Prop := ∀ j, j ≠ i → (s.procs j).stage = .idle

theorem Alone.exclusive (h : Alone i s) : Exclusive s := by
  have hne (j : ℕ) (name : CStr) (hj : busy (s.procs j).stage = some name) : j = i := by
    by_contra hc
    rw [h j hc] at hj
    cases hj
  intro a b name ha hb
  rw [hne a name ha, hne b name hb]

theorem reachable_alone : ∀ {acts : List Act} {s : State}, Reachable Start ExclusiveStep s →
    Alone i s → (∀ a ∈ acts, a.Slabs ∧ a.proc = i) → runActs acts s = some s' →
    Reachable Start ExclusiveStep s'
  | [], s, h, _, _, hrun => by
    cases hrun
    exact h
  | a :: acts, s, h, halone, hacts, hrun => by
    rw [List.forall_mem_cons] at hacts
    obtain ⟨⟨hslab, hproc⟩, hacts⟩ := hacts
    obtain ⟨s1, hact, hrest⟩ := Option.bind_eq_some_iff.mp hrun
    have halone1 : Alone i s1 := by
      intro j hj
      rw [act_others hact (by rw [hproc]; exact hj)]
      exact halone j hj
    exact reachable_alone (h.tail ⟨halone.exclusive, a, hslab, hact⟩) halone1 hacts hrest

/-- A process that has made a region finds it under its name. -/
theorem region_names_created : ∃ s h file, runActs (creation 0) State.empty = some s ∧
    (s.procs 0).stage = .live h ∧ s.kernel.fds.cell h.fd = some file ∧
    s.kernel.dir h.name = some file := by
  have hacts : ∀ a ∈ creation 0, a.Slabs ∧ a.proc = 0 := by
    intro a ha
    rcases List.mem_cons.mp ha with rfl | ha
    · refine ⟨fun _ _ hgrow => ?_, rfl⟩
      cases hgrow
    · rw [List.eq_of_mem_replicate ha]
      refine ⟨fun _ _ hgrow => ?_, rfl⟩
      cases hgrow
  have hreach {s : State} (hrun : runActs (creation 0) State.empty = some s) :
      Reachable Start ExclusiveStep s :=
    reachable_alone (.of_start start_empty) (fun _ _ => rfl) hacts hrun
  exact ⟨_, _, _, rfl, rfl, rfl, (region_names.1 _ (hreach rfl) 0 _ _ _ rfl rfl).1⟩

end Runs

end Optics.RegionCalls
