import Optics.RegionCalls

/-! # What a step of a process does to regions

`next_spec`: a process that is in the middle of a call can take its next step, whatever the system
call in it returns; afterwards it knows what it has to, holds what its stage says and what it has
given up, and has touched nothing of what others hold. -/

namespace Optics.RegionCalls

open Optics.Base Optics.Lib.Blocks Optics.Lib.Holdings Optics.Lib.Runs
open Optics.Utils.Bits Optics.Regions Optics.Lenses Optics.ShmFiles
open Optics.AllocatorRuns (sizeofHeader blockBase)
open Optics.RegionThreads (Grown Created Grow)

/-- What a step of the process `i` does that is at `stage` and has given up `lostF` and `lostM`. -/
structure Does (i : ℕ) (k : Kernel) (fds maps : ℕ → List ℕ) (stage : Stage) (lostF lostM : List ℕ)
    (d : Done) : Prop where
  ok : Ok d.kernel d.stage
  moves : Moves i k d.kernel fds maps (ownFile k stage) (fdsOf d.stage ++ (d.lostFds ++ lostF))
    (mapsOf d.stage ++ (d.lostMaps ++ lostM))
  own : ∀ file, ownFile d.kernel d.stage = some file →
    ownFile k stage = some file ∨ k.files.cell file = none

section Step
variable {i : ℕ} {k : Kernel} {fds maps : ℕ → List ℕ} {lostF lostM : List ℕ} {h : Handle}
variable {file : ℕ} {f : ShmFile} {arg name : CStr} {fd : ℕ}

theorem does_nothing (hs : k.Sound fds maps) {stage stage' : Stage} (hok : Ok k stage')
    (hfds : (fdsOf stage' ++ lostF).Perm (fds i)) (hmaps : (mapsOf stage' ++ lostM).Perm (maps i))
    (hown : ownFd stage' = none ∨ ownFd stage' = ownFd stage) :
    Does i k fds maps stage lostF lostM (.to stage' k) where
  ok := hok
  moves := hs.refl hfds hmaps
  own file' hfile := by
    rcases hown with hown | hown
    · simp [Done.to, ownFile, hown] at hfile
    · rw [Done.to, ownFile, hown] at hfile
      exact Or.inl hfile

theorem next_wipe (hs : k.Sound fds maps) (hfds : fds i = lostF) (hmaps : maps i = lostM)
    (sys : Sys) : ∃ d, next sys k (.wipe arg name) = some d ∧
      Does i k fds maps (.wipe arg name) lostF lostM d := by
  subst hfds hmaps
  exact ⟨_, rfl, .create, moves_shmUnlink hs sys name, fun _ hfile => by cases hfile⟩

theorem next_unlink (hs : k.Sound fds maps) (hfds : fds i = lostF) (hmaps : maps i = lostM)
    (sys : Sys) : ∃ d, next sys k (.unlink name) = some d ∧
      Does i k fds maps (.unlink name) lostF lostM d := by
  subst hfds hmaps
  exact ⟨_, rfl, .idle, moves_shmUnlink hs sys name, fun _ hfile => by cases hfile⟩

theorem next_create (hs : k.Sound fds maps) (hfds : fds i = lostF) (hmaps : maps i = lostM)
    (sys : Sys) : ∃ d, next sys k (.create arg name) = some d ∧
      Does i k fds maps (.create arg name) lostF lostM d := by
  subst hfds hmaps
  rw [next]
  cases hc : shmCreate sys name k with
  | none => exact ⟨_, rfl, does_nothing hs .idle (.refl _) (.refl _) (.inl rfl)⟩
  | some x =>
    obtain ⟨fd, k'⟩ := x
    obtain ⟨file, hnone, hf, hfd, -, hmoves⟩ := moves_shmCreate hs hc
    refine ⟨_, rfl, .truncate hfd hf, hmoves, fun file' hfile => Or.inr ?_⟩
    cases hfd.symm.trans hfile
    exact hnone

theorem next_openFile (hs : k.Sound fds maps) (hfds : fds i = lostF) (hmaps : maps i = lostM)
    (sys : Sys) : ∃ d, next sys k (.openFile name) = some d ∧
      Does i k fds maps (.openFile name) lostF lostM d := by
  subst hfds hmaps
  rw [next]
  cases hc : shmOpen sys name k with
  | none => exact ⟨_, rfl, does_nothing hs .idle (.refl _) (.refl _) (.inl rfl)⟩
  | some x =>
    obtain ⟨fd, k'⟩ := x
    obtain ⟨file, hfd, hmoves⟩ := moves_shmOpen hs hc
    exact ⟨_, rfl, .stat, hmoves, fun _ hfile => by cases hfile⟩

theorem next_truncate (hs : k.Sound fds maps) (hfds : fds i = fd :: lostF) (hmaps : maps i = lostM)
    (hfd : k.fds.cell fd = some file) (hf : k.files.cell file = some ⟨0, 0, 0⟩) (sys : Sys) :
    ∃ d, next sys k (.truncate arg name fd) = some d ∧
      Does i k fds maps (.truncate arg name fd) lostF lostM d := by
  rw [next, ftruncate_eq sys hfd hf]
  by_cases hsys : sys.ok
  · rw [if_pos hsys]
    have hgrows : Grows (⟨0, 0, 0⟩ : ShmFile) ⟨regionDefaultLen, 0, 0⟩ := ⟨Nat.zero_le _, id, id⟩
    have hmoves := moves_setFile (i := i) hs hf hgrows hfd
    rw [hfds, hmaps] at hmoves
    exact ⟨_, rfl, .map hfd (setFile_self _ _ _), hmoves, fun _ hfile => Or.inl hfile⟩
  · rw [if_neg hsys]
    exact ⟨_, rfl, does_nothing hs .undo (by rw [hfds]; rfl) (by rw [hmaps]; rfl) (.inl rfl)⟩

theorem madeBy_create :
    MadeBy ⟨true, sizeofHeader, blockBase, regionDefaultLen⟩ regionDefaultLen := by
  have hcreate : regionCreate true ⟨true, true⟩ CStr.empty sizeofHeader =
      some (⟨true, sizeofHeader, blockBase, regionDefaultLen⟩,
        ⟨regionDefaultLen, fun _ => 0⟩) := rfl
  refine ⟨⟨_, ⟨regionDefaultLen, fun _ => 0⟩, []⟩, Reachable.of_start ?_, rfl, rfl⟩
  exact ⟨true, _, _, sizeofHeader, by decide, by decide, hcreate, rfl⟩

theorem next_map (hs : k.Sound fds maps) (hfds : fds i = fd :: lostF) (hmaps : maps i = lostM)
    (hfd : k.fds.cell fd = some file) (hf : k.files.cell file = some ⟨regionDefaultLen, 0, 0⟩)
    (sys : Sys) : ∃ d, next sys k (.map arg name fd) = some d ∧
      Does i k fds maps (.map arg name fd) lostF lostM d := by
  rw [next]
  rcases moves_mmap (i := i) hs hfd hf le_rfl sys with hc | ⟨m, k', hc, hfds', hfiles, hm, hmoves⟩
  · rw [hc]
    exact ⟨_, rfl, does_nothing hs .undo (by rw [hfds]; rfl) (by rw [hmaps]; rfl) (.inl rfl)⟩
  · rw [hc]
    rw [hfds, hmaps] at hmoves
    have hfd' : k'.fds.cell fd = some file := by rw [hfds', hfd]
    have hf' : k'.files.cell file = some ⟨regionDefaultLen, 0, 0⟩ := by rw [hfiles, hf]
    have hdouble : regionDefaultLen ≤ regionDefaultLen * 2 := by decide
    refine ⟨_, rfl, .magic ⟨⟨hfd', hf', m, [], rfl, hm⟩, madeBy_create, hdouble⟩, hmoves,
      fun _ hfile => Or.inl ?_⟩
    cases hfd'.symm.trans hfile
    exact hfd

theorem next_undo (hs : k.Sound fds maps) (hfds : fds i = fd :: lostF) (hmaps : maps i = lostM)
    (sys : Sys) : ∃ d, next sys k (.undo name fd) = some d ∧
      Does i k fds maps (.undo name fd) lostF lostM d := by
  obtain ⟨ok, k', hclose, -, hmoves⟩ := moves_close hs (by rw [hfds]) sys
  rw [next, hclose]
  rw [hmaps] at hmoves
  exact ⟨_, rfl, .unlink, hmoves, fun _ hfile => by cases hfile⟩

theorem next_drop (hs : k.Sound fds maps) (hfds : fds i = fd :: lostF) (hmaps : maps i = lostM)
    (sys : Sys) : ∃ d, next sys k (.drop fd) = some d ∧
      Does i k fds maps (.drop fd) lostF lostM d := by
  obtain ⟨ok, k', hclose, -, hmoves⟩ := moves_close hs (by rw [hfds]) sys
  rw [next, hclose]
  rw [hmaps] at hmoves
  exact ⟨_, rfl, .idle, hmoves, fun _ hfile => by cases hfile⟩

theorem next_closeFd (hs : k.Sound fds maps) (hfds : fds i = h.fd :: lostF) (hmaps : maps i = lostM)
    (sys : Sys) : ∃ d, next sys k (.closeFd h) = some d ∧
      Does i k fds maps (.closeFd h) lostF lostM d := by
  obtain ⟨ok, k', hclose, hkept, hmoves⟩ := moves_close hs (by rw [hfds]) sys
  rw [next, hclose]
  rw [hmaps] at hmoves
  cases ok with
  | false => exact ⟨_, rfl, .idle, hmoves, fun _ hfile => by cases hfile⟩
  | true =>
    rw [hkept rfl] at hmoves
    by_cases howned : h.region.owned
    · refine ⟨_, rfl, ?_⟩
      rw [if_pos howned]
      exact ⟨.unlink, hmoves, fun _ hfile => by cases hfile⟩
    · refine ⟨_, rfl, ?_⟩
      rw [if_neg howned]
      exact ⟨.idle, hmoves, fun _ hfile => by cases hfile⟩

theorem Mapped.header (hm : Mapped k h file f) : header (h.vmas.headD 0) k = some f := by
  obtain ⟨m, vmas, hvmas, hcell⟩ := hm.vma
  rw [hvmas]
  exact header_eq hcell hm.contents

/-- **The creator stores a word of the header.** -/
theorem Owns.setHeader (ho : Owns k h file f) (hs : k.Sound fds maps) (g : ShmFile → ShmFile)
    (hgrows : Grows f (g f)) (hlen : (g f).len = f.len) :
    ∃ k', setHeader (h.vmas.headD 0) g k = some k' ∧ k'.fds = k.fds ∧ Owns k' h file (g f) ∧
      Moves i k k' fds maps (k.fds.cell h.fd) (fds i) (maps i) := by
  obtain ⟨m, vmas, hvmas, hcell⟩ := ho.mapped.vma
  refine ⟨k.setFile file (g f), ?_, rfl,
    ⟨⟨ho.mapped.fd, setFile_self _ _ _, m, vmas, hvmas, hcell⟩, ?_, ?_⟩,
    moves_setFile hs ho.mapped.contents hgrows ho.mapped.fd⟩
  · rw [hvmas]
    exact setHeader_eq hcell ho.mapped.contents g
  · rw [hlen]
    exact ho.made
  · rw [hlen]
    exact ho.le

theorem MadeBy.owner {r : Region} {n : ℕ} (hmade : MadeBy r n) :
    ∃ file, r.Owner file ∧ file.len = n := by
  obtain ⟨g, hg, rfl, rfl⟩ := hmade
  exact ⟨g.file, (RegionThreads.handedOut_of_reachable hg).owner, rfl⟩

theorem next_magic (hs : k.Sound fds maps) (hfds : fds i = h.fd :: lostF)
    (hmaps : maps i = h.vmas ++ lostM) (ho : Owns k h file f) (sys : Sys) :
    ∃ d, next sys k (.magic arg h) = some d ∧ Does i k fds maps (.magic arg h) lostF lostM d := by
  rw [next]
  cases hptr : regionPtrUnsafe h.region 0 sizeofHeader with
  | none =>
    exact ⟨_, rfl, does_nothing hs .unmap (by rw [hfds]; rfl) (by rw [hmaps]; rfl) (.inl rfl)⟩
  | some p =>
    have hgrows : Grows f { f with magic := magic } := ⟨le_rfl, fun _ => rfl, id⟩
    obtain ⟨k', hset, hkfds, ho', hmoves⟩ :=
      ho.setHeader (i := i) hs (fun f => { f with magic := magic }) hgrows rfl
    have hlen : sizeofHeader ≤ f.len := by
      obtain ⟨file', hown, hlen'⟩ := ho.made.owner
      have h1 := hown.vma_ge
      have h2 := hown.vma_le
      have h3 : sizeofHeader ≤ regionDefaultLen := by decide
      omega
    rw [hfds, hmaps] at hmoves
    simp only [hset, Option.bind_eq_bind, Option.bind_some]
    refine ⟨_, rfl, .version ho' rfl hlen, hmoves, fun file' hfile => Or.inl ?_⟩
    rw [Done.to, ownFile, hkfds] at hfile
    exact hfile

theorem next_version (hs : k.Sound fds maps) (hfds : fds i = h.fd :: lostF)
    (hmaps : maps i = h.vmas ++ lostM) (ho : Owns k h file f) (hmagic : f.magic = magic)
    (hlen : sizeofHeader ≤ f.len) (sys : Sys) : ∃ d, next sys k (.version arg h) = some d ∧
      Does i k fds maps (.version arg h) lostF lostM d := by
  have hgrows : Grows f { f with version := version } := ⟨le_rfl, id, fun _ => rfl⟩
  obtain ⟨k', hset, hkfds, ho', hmoves⟩ :=
    ho.setHeader (i := i) hs (fun f => { f with version := version }) hgrows rfl
  rw [hfds, hmaps] at hmoves
  rw [next]
  simp only [hset, Option.bind_eq_bind, Option.bind_some]
  split_ifs
  · exact ⟨_, rfl, .unmap, hmoves, fun _ hfile => by cases hfile⟩
  · refine ⟨_, rfl, .live (.owner ho') ⟨hmagic, rfl⟩ hlen, hmoves, fun file' hfile => Or.inl ?_⟩
    rw [Done.to, ownFile, hkfds, ownFd, if_pos ho.made.owned] at hfile
    exact hfile

theorem next_stat (hs : k.Sound fds maps) (hfds : fds i = fd :: lostF) (hmaps : maps i = lostM)
    (sys : Sys) : ∃ d, next sys k (.stat name fd) = some d ∧
      Does i k fds maps (.stat name fd) lostF lostM d := by
  have hmem : fd ∈ fds i := by simp [hfds]
  obtain ⟨file, hfd⟩ := Option.isSome_iff_exists.mp (hs.fds.isSome hmem)
  obtain ⟨f, hf⟩ := hs.fd fd file hfd
  have hF : (fdsOf (.drop fd) ++ lostF).Perm (fds i) := by rw [hfds]; rfl
  have hM : (mapsOf (.drop fd) ++ lostM).Perm (maps i) := by rw [hmaps]; rfl
  rw [next, fstat_eq sys hfd hf]
  by_cases hsys : sys.ok
  · rw [if_pos hsys]
    exact ⟨_, rfl, does_nothing hs (.mapOpen hfd hf le_rfl) hF hM (.inl rfl)⟩
  · rw [if_neg hsys]
    exact ⟨_, rfl, does_nothing hs .drop hF hM (.inl rfl)⟩

theorem next_mapOpen (hs : k.Sound fds maps) (hfds : fds i = fd :: lostF) (hmaps : maps i = lostM)
    {len : ℕ} (hfd : k.fds.cell fd = some file) (hf : k.files.cell file = some f)
    (hlen : len ≤ f.len) (sys : Sys) : ∃ d, next sys k (.mapOpen name fd len) = some d ∧
      Does i k fds maps (.mapOpen name fd len) lostF lostM d := by
  rw [next]
  rcases moves_mmap (i := i) hs hfd hf hlen sys with hc | ⟨m, k', hc, hfds', hfiles, hm, hmoves⟩
  · rw [hc]
    exact ⟨_, rfl, does_nothing hs .drop (by rw [hfds]; rfl) (by rw [hmaps]; rfl) (.inl rfl)⟩
  · rw [hc]
    rw [hfds, hmaps] at hmoves
    have hfd' : k'.fds.cell fd = some file := by rw [hfds', hfd]
    have hf' : k'.files.cell file = some f := by rw [hfiles, hf]
    exact ⟨_, rfl, .check ⟨hfd', hf', m, [], rfl, hm⟩ rfl, hmoves, fun _ hfile => by cases hfile⟩

theorem next_check (hs : k.Sound fds maps) (hfds : fds i = h.fd :: lostF)
    (hmaps : maps i = h.vmas ++ lostM) (hm : Mapped k h file f) {n : ℕ}
    (hr : h.region = ⟨false, 0, n, n⟩) (sys : Sys) : ∃ d, next sys k (.check h) = some d ∧
      Does i k fds maps (.check h) lostF lostM d := by
  have hF : (fdsOf (.check h) ++ lostF).Perm (fds i) := by rw [hfds]; rfl
  have hM : (mapsOf (.check h) ++ lostM).Perm (maps i) := by rw [hmaps]; rfl
  have hclose : Does i k fds maps (.check h) lostF lostM (.to (.unmap h h.vmas) k) :=
    does_nothing hs .unmap hF hM (.inl rfl)
  rw [next]
  cases hptr : regionPtr h.region 0 sizeofHeader with
  | none => exact ⟨_, rfl, hclose⟩
  | some p =>
    simp only [hm.header, Option.bind_eq_bind, Option.bind_some]
    split_ifs with hmagic
    · have hlen : sizeofHeader ≤ f.len := by
        obtain ⟨m, vmas, -, hcell⟩ := hm.vma
        obtain ⟨f', hf', hle⟩ := hs.map _ _ _ hcell
        cases hm.contents.symm.trans hf'
        have hzero : 0 + sizeofHeader < 2 ^ 64 := by decide
        have hsome := (regionPtr_isSome hzero).mp (Option.isSome_iff_exists.mpr ⟨p, hptr⟩)
        rw [hr] at hsome hle
        exact le_trans (by simpa using hsome.2) hle
      exact ⟨_, rfl, does_nothing hs (.checkVersion hm hr hmagic hlen) hF hM (.inl rfl)⟩
    · exact ⟨_, rfl, hclose⟩

theorem next_checkVersion (hs : k.Sound fds maps) (hfds : fds i = h.fd :: lostF)
    (hmaps : maps i = h.vmas ++ lostM) (hm : Mapped k h file f) {n : ℕ}
    (hr : h.region = ⟨false, 0, n, n⟩) (hmagic : f.magic = magic) (hlen : sizeofHeader ≤ f.len)
    (sys : Sys) : ∃ d, next sys k (.checkVersion h) = some d ∧
      Does i k fds maps (.checkVersion h) lostF lostM d := by
  have hF : (fdsOf (.checkVersion h) ++ lostF).Perm (fds i) := by rw [hfds]; rfl
  have hM : (mapsOf (.checkVersion h) ++ lostM).Perm (maps i) := by rw [hmaps]; rfl
  rw [next]
  simp only [hm.header, Option.bind_eq_bind, Option.bind_some]
  split_ifs with hversion
  · have hnone : ownFd (.live h) = none := by simp [ownFd, hr]
    have hok : Ok k (.live h) := .live (.opened hm n hr) ⟨hmagic, hversion⟩ hlen
    exact ⟨_, rfl, does_nothing hs hok hF hM (.inl hnone)⟩
  · exact ⟨_, rfl, does_nothing hs .unmap hF hM (.inl rfl)⟩

theorem next_unmap (hs : k.Sound fds maps) {vmas : List ℕ} (hfds : fds i = h.fd :: lostF)
    (hmaps : maps i = vmas ++ lostM) (sys : Sys) : ∃ d, next sys k (.unmap h vmas) = some d ∧
      Does i k fds maps (.unmap h vmas) lostF lostM d := by
  cases vmas with
  | nil =>
    exact ⟨_, rfl, does_nothing hs .closeFd (by rw [hfds]; rfl) (by rw [hmaps]; rfl) (.inl rfl)⟩
  | cons m vmas =>
    rw [next]
    rcases moves_munmap (i := i) hs (by rw [hmaps]; rfl) sys with hc | ⟨k', hc, -, -, hmoves⟩
    · rw [hc]
      refine ⟨_, rfl, .idle, ?_, fun _ hfile => by cases hfile⟩
      exact hs.refl (by rw [hfds]; rfl) (by rw [hmaps]; rfl)
    · rw [hc]
      rw [hfds] at hmoves
      exact ⟨_, rfl, .unmap, hmoves, fun _ hfile => by cases hfile⟩

/-! ### Growth -/

theorem MadeBy.step {g g' : Grown} {r : Region} (hg : Reachable Created Grow g) (hgrow : Grow g g')
    (hr : g'.region = r) {n : ℕ} (hn : g'.file.len = n) : MadeBy r n := ⟨g', hg.tail hgrow, hr, hn⟩

theorem MadeBy.fits {r : Region} {n len : ℕ} (hmade : MadeBy r n) (hlt : len < regionDefaultLen)
    (hfit : w64 (r.pos + len) ≤ r.vmaLen) : MadeBy { r with pos := w64 (r.pos + len) } n := by
  have howned := hmade.owned
  obtain ⟨g, hg, rfl, rfl⟩ := hmade
  have hrun : regionGrow ⟨true, true⟩ g.region g.file len =
      .ok (g.region.pos, { g.region with pos := w64 (g.region.pos + len) }, g.file) := by
    unfold regionGrow
    simp only [howned, Bool.not_true, Bool.false_eq_true, if_false, if_pos hfit]
  exact MadeBy.step hg (.call hlt hrun) rfl rfl

theorem Growing.double {len n : ℕ} (hg : Growing h len) (hmade : MadeBy h.region n) :
    growLen 65 h.region.vmaLen (w64 (h.region.pos + len)) = .ok (h.region.vmaLen * 2) := by
  obtain ⟨file', ho, -⟩ := hmade.owner
  have h1 := ho.pos_le
  have h2 := ho.vma_ge
  have h3 := ho.vma_lt
  have h4 := hg.lt
  have h5 := hg.short
  have h6 : w64 (h.region.pos + len) = h.region.pos + len :=
    w64_eq (by unfold regionDefaultLen at h4; omega)
  rw [h6] at h5 ⊢
  exact growLen_eq (by omega) (by omega) h3

/-- **The file is extended** and mapped anew, if `mmap` succeeds. -/
theorem Growing.made {len n : ℕ} (hg : Growing h len) (hmade : MadeBy h.region n)
    (hlt : h.region.vmaLen * 2 < 2 ^ 63) : MadeBy h.region (h.region.vmaLen * 2) ∧
      MadeBy { h.region with pos := w64 (h.region.pos + len), vmaLen := h.region.vmaLen * 2 }
        (h.region.vmaLen * 2) := by
  have howned := hmade.owned
  have hdouble := hg.double hmade
  obtain ⟨g, hreach, hregion, -⟩ := hmade
  have hrun (mapped : Bool) : regionGrow ⟨true, mapped⟩ g.region g.file len =
      if mapped then
        .ok (h.region.pos,
          { h.region with pos := w64 (h.region.pos + len), vmaLen := h.region.vmaLen * 2 },
          g.file.ftruncate (h.region.vmaLen * 2))
      else .ok (0, h.region, g.file.ftruncate (h.region.vmaLen * 2)) := by
    unfold regionGrow
    rw [hregion]
    simp only [howned, Bool.not_true, Bool.false_eq_true, if_false, if_neg hg.short, hdouble,
      ok_bind, Bool.false_or, decide_eq_true_eq, if_neg (not_le.mpr hlt)]
    cases mapped <;> rfl
  exact ⟨MadeBy.step hreach (.call hg.lt (hrun false)) rfl rfl,
    MadeBy.step hreach (.call hg.lt (hrun true)) rfl rfl⟩

theorem next_growFile (hs : k.Sound fds maps) (hfds : fds i = h.fd :: lostF)
    (hmaps : maps i = h.vmas ++ lostM) (ho : Owns k h file f) (hf : Accepted f)
    (hlen : sizeofHeader ≤ f.len) {len : ℕ} (hg : Growing h len) (sys : Sys) :
    ∃ d, next sys k (.growFile h len) = some d ∧
      Does i k fds maps (.growFile h len) lostF lostM d := by
  have hlive : Does i k fds maps (.growFile h len) lostF lostM (.to (.live h) k) := by
    refine does_nothing hs (.live (.owner ho) hf hlen) (by rw [hfds]; rfl) (by rw [hmaps]; rfl) ?_
    exact .inr (if_pos ho.made.owned)
  rw [next, growStep, hg.double ho.made]
  dsimp only
  by_cases hlt : 2 ^ 63 ≤ h.region.vmaLen * 2
  · rw [if_pos hlt]
    exact ⟨_, rfl, hlive⟩
  rw [if_neg hlt, ftruncate_eq sys ho.mapped.fd ho.mapped.contents]
  by_cases hsys : sys.ok
  · rw [if_pos hsys]
    have hgrows : Grows f { f with len := h.region.vmaLen * 2 } := ⟨ho.le, id, id⟩
    have hmoves := moves_setFile (i := i) hs ho.mapped.contents hgrows ho.mapped.fd
    rw [hfds, hmaps] at hmoves
    obtain ⟨m, vmas, hvmas, hcell⟩ := ho.mapped.vma
    have hmapped : Mapped (k.setFile file { f with len := h.region.vmaLen * 2 }) h file
        { f with len := h.region.vmaLen * 2 } :=
      ⟨ho.mapped.fd, setFile_self _ _ _, m, vmas, hvmas, hcell⟩
    refine ⟨_, rfl, ?_, hmoves, fun _ hfile => Or.inl hfile⟩
    exact .growMap hmapped ho.made rfl (not_le.mp hlt) hf (hlen.trans ho.le) hg
  · rw [if_neg hsys]
    exact ⟨_, rfl, hlive⟩

theorem next_growMap (hs : k.Sound fds maps) (hfds : fds i = h.fd :: lostF)
    (hmaps : maps i = h.vmas ++ lostM) {len n : ℕ} (hm : Mapped k h file f)
    (hmade : MadeBy h.region n) (heq : f.len = h.region.vmaLen * 2) (hlt : f.len < 2 ^ 63)
    (hf : Accepted f) (hlen : sizeofHeader ≤ f.len) (hg : Growing h len) (sys : Sys) :
    ∃ d, next sys k (.growMap h len f.len) = some d ∧
      Does i k fds maps (.growMap h len f.len) lostF lostM d := by
  obtain ⟨hfailed, hdone⟩ := hg.made hmade (heq ▸ hlt)
  rw [← heq] at hfailed hdone
  rw [next]
  rcases moves_mmap (i := i) hs hm.fd hm.contents le_rfl sys with
    hc | ⟨m, k', hc, hfds', hfiles, hcell, hmoves⟩
  · rw [hc]
    have hok : Ok k (.live h) := .live (.owner ⟨hm, hfailed, heq.le⟩) hf hlen
    exact ⟨_, rfl, does_nothing hs hok (by rw [hfds]; rfl) (by rw [hmaps]; rfl)
      (.inr (if_pos hmade.owned))⟩
  · rw [hc]
    rw [hfds, hmaps] at hmoves
    have hfd' : k'.fds.cell h.fd = some file := by rw [hfds', hm.fd]
    have hf' : k'.files.cell file = some f := by rw [hfiles, hm.contents]
    have hle : f.len ≤ f.len * 2 := by omega
    refine ⟨_, rfl, .live (.owner ⟨⟨hfd', hf', m, h.vmas, rfl, hcell⟩, hdone, hle⟩) hf hlen, hmoves,
      fun file' hfile => Or.inl ?_⟩
    rw [Done.to, ownFile, ownFd, if_pos hmade.owned] at hfile
    cases hfd'.symm.trans hfile
    exact hm.fd

/-- **A process in the middle of a call takes its next step**, whatever the system call returns. -/
theorem next_spec (hs : k.Sound fds maps) {stage : Stage} (hok : Ok k stage)
    (hfds : fds i = fdsOf stage ++ lostF) (hmaps : maps i = mapsOf stage ++ lostM)
    (hidle : stage ≠ .idle) (hlive : ∀ h, stage ≠ .live h) (sys : Sys) :
    ∃ d, next sys k stage = some d ∧ Does i k fds maps stage lostF lostM d := by
  cases hok with
  | idle => exact absurd rfl hidle
  | wipe => exact next_wipe hs hfds hmaps sys
  | create => exact next_create hs hfds hmaps sys
  | truncate hfd hf => exact next_truncate hs hfds hmaps hfd hf sys
  | map hfd hf => exact next_map hs hfds hmaps hfd hf sys
  | undo => exact next_undo hs hfds hmaps sys
  | magic ho => exact next_magic hs hfds hmaps ho sys
  | version ho hmagic hlen => exact next_version hs hfds hmaps ho hmagic hlen sys
  | openFile => exact next_openFile hs hfds hmaps sys
  | stat => exact next_stat hs hfds hmaps sys
  | mapOpen hfd hf hlen => exact next_mapOpen hs hfds hmaps hfd hf hlen sys
  | drop => exact next_drop hs hfds hmaps sys
  | check hm hr => exact next_check hs hfds hmaps hm hr sys
  | checkVersion hm hr hmagic hlen => exact next_checkVersion hs hfds hmaps hm hr hmagic hlen sys
  | live => exact absurd rfl (hlive _)
  | growFile ho hf hlen hg => exact next_growFile hs hfds hmaps ho hf hlen hg sys
  | growMap hm hmade heq hlt hf hlen hg =>
    exact next_growMap hs hfds hmaps hm hmade heq hlt hf hlen hg sys
  | unmap => exact next_unmap hs hfds hmaps sys
  | closeFd => exact next_closeFd hs hfds hmaps sys
  | unlink => exact next_unlink hs hfds hmaps sys

end Step

end Optics.RegionCalls
