import Optics.AllocatorRuns
import Optics.Lenses
import Optics.RegionThreads
import Optics.ShmFiles

/-! # Regions made, opened and closed by processes

`optics_create_at`, `optics_open`, `optics_close` and `optics_unlink` with what `region.c` does for
them, system call by system call, by any number of processes that share the names and the files. A
process has one `struct optics` at a time; the owner of a region grows it. A system call may fail
wherever it can, and a process may end anywhere.

* `next` is the program, one system call or access to the header at a time;
* `Ok` is what a process knows where it is, and `next_spec` what a step of it does. -/

namespace Optics.RegionCalls

open Optics.Base Optics.Lib.Blocks Optics.Lib.Holdings Optics.Lib.Runs
open Optics.Utils.Bits Optics.Regions Optics.Lenses Optics.ShmFiles
open Optics.AllocatorRuns (sizeofHeader blockBase)
open Optics.RegionThreads (Grown Created Grow)

/-! ### The program -/

/-- `struct optics` with its region; the mappings are listed from the newest on. -/
structure Handle where
  name : CStr
  fd : ℕ
  vmas : List ℕ
  region : Region

/-- Where a process is. -/
inductive Stage where
  | idle
  /-- `region_create`: to call `region_unlink` -/
  | wipe (arg name : CStr)
  /-- to call `shm_open` -/
  | create (arg name : CStr)
  | truncate (arg name : CStr) (fd : ℕ)
  | map (arg name : CStr) (fd : ℕ)
  /-- `fail_truncate`, `fail_vma` -/
  | undo (name : CStr) (fd : ℕ)
  /-- `optics_create_at`: to store `magic` -/
  | magic (arg : CStr) (h : Handle)
  | version (arg : CStr) (h : Handle)
  /-- `region_open`: to call `shm_open` -/
  | openFile (name : CStr)
  | stat (name : CStr) (fd : ℕ)
  | mapOpen (name : CStr) (fd len : ℕ)
  /-- `fail_len`, `fail_vma` -/
  | drop (fd : ℕ)
  /-- `optics_open`: to load `magic` -/
  | check (h : Handle)
  | checkVersion (h : Handle)
  /-- no call is going on -/
  | live (h : Handle)
  /-- `region_grow`: to call `ftruncate` -/
  | growFile (h : Handle) (len : ℕ)
  | growMap (h : Handle) (len newLen : ℕ)
  /-- `region_close`: mappings still to be removed -/
  | unmap (h : Handle) (vmas : List ℕ)
  | closeFd (h : Handle)
  /-- to call `shm_unlink`, and be done -/
  | unlink (name : CStr)

/-- A call by the user of the library. -/
inductive Request where
  | create (arg : CStr)
  | openAt (arg : CStr)
  | unlink (arg : CStr)
  | grow (len : ℕ)
  | close

/-- A call with a name, which ends at once if the name is too long. -/
def named (arg : CStr) (stage : CStr → Stage) : Stage :=
  match regionShmName arg with
  | none => .idle
  | some name => stage name

/-- A call begins. -/
def request : Request → Stage → Option Stage
  | .create arg, .idle => some (named arg (.wipe arg))
  | .openAt arg, .idle => some (named arg .openFile)
  | .unlink arg, .idle => some (named arg .unlink)
  | .grow len, .live h =>
    if h.region.owned = false then some (.live h)
    else if w64 (h.region.pos + len) ≤ h.region.vmaLen then
      some (.live { h with region := { h.region with pos := w64 (h.region.pos + len) } })
    else some (.growFile h len)
  | .close, .live h => some (.unmap h h.vmas)
  | _, _ => none

/-- Where a step leads to, the system after it, and the descriptors and mappings that are given up
without having been released. -/
structure Done where
  stage : Stage
  kernel : Kernel
  lostFds : List ℕ
  lostMaps : List ℕ

/-- Nothing is given up. -/
def Done.to (stage : Stage) (k : Kernel) : Done := ⟨stage, k, [], []⟩

/-- `region_grow` extends the file. -/
def growStep (sys : Sys) (k : Kernel) (h : Handle) (len : ℕ) : Option Done :=
  match growLen 65 h.region.vmaLen (w64 (h.region.pos + len)) with
  | .error _ => none
  | .ok newLen =>
    -- a length that is negative as an `off_t` is refused
    if 2 ^ 63 ≤ newLen then some (.to (.live h) k)
    else do
      let (ok, k) ← ftruncate sys h.fd newLen k
      some (.to (if ok then .growMap h len newLen else .live h) k)

/-- A step of a process in the middle of a call. -/
def next (sys : Sys) (k : Kernel) : Stage → Option Done
  | .idle => none
  | .wipe arg name => some (.to (.create arg name) (shmUnlink sys name k))
  | .create arg name =>
    match shmCreate sys name k with
    | none => some (.to .idle k)
    | some (fd, k) => some (.to (.truncate arg name fd) k)
  | .truncate arg name fd => do
    let (ok, k) ← ftruncate sys fd regionDefaultLen k
    some (.to (if ok then .map arg name fd else .undo name fd) k)
  | .map arg name fd => do
    let (m, k) ← mmap sys fd regionDefaultLen k
    match m with
    | none => some (.to (.undo name fd) k)
    | some m =>
      some (.to (.magic arg ⟨name, fd, [m], ⟨true, sizeofHeader, blockBase, regionDefaultLen⟩⟩) k)
  | .undo name fd => do
    let (_, k) ← close sys fd k
    some ⟨.unlink name, k, keptFd sys fd, []⟩
  | .magic arg h =>
    match regionPtrUnsafe h.region 0 sizeofHeader with
    | none => some (.to (.unmap h h.vmas) k)
    | some _ => do
      let k ← setHeader (h.vmas.headD 0) (fun f => { f with magic := magic }) k
      some (.to (.version arg h) k)
  | .version arg h => do
    let k ← setHeader (h.vmas.headD 0) (fun f => { f with version := version }) k
    -- `optics_set_prefix`
    if arg.strnlen opticsNameMaxLen = opticsNameMaxLen then some (.to (.unmap h h.vmas) k)
    else some (.to (.live h) k)
  | .openFile name =>
    match shmOpen sys name k with
    | none => some (.to .idle k)
    | some (fd, k) => some (.to (.stat name fd) k)
  | .stat name fd => do
    match ← fstat sys fd k with
    | none => some (.to (.drop fd) k)
    | some len => some (.to (.mapOpen name fd len) k)
  | .mapOpen name fd len => do
    let (m, k) ← mmap sys fd len k
    match m with
    | none => some (.to (.drop fd) k)
    | some m => some (.to (.check ⟨name, fd, [m], ⟨false, 0, len, len⟩⟩) k)
  | .drop fd => do
    let (_, k) ← close sys fd k
    some ⟨.idle, k, keptFd sys fd, []⟩
  | .check h =>
    match regionPtr h.region 0 sizeofHeader with
    | none => some (.to (.unmap h h.vmas) k)
    | some _ => do
      let f ← header (h.vmas.headD 0) k
      some (.to (if f.magic = magic then .checkVersion h else .unmap h h.vmas) k)
  | .checkVersion h => do
    let f ← header (h.vmas.headD 0) k
    some (.to (if f.version = version then .live h else .unmap h h.vmas) k)
  | .live _ => none
  | .growFile h len => growStep sys k h len
  | .growMap h len newLen => do
    let (m, k) ← mmap sys h.fd newLen k
    match m with
    | none => some (.to (.live h) k)
    | some m =>
      let region := { h.region with pos := w64 (h.region.pos + len), vmaLen := newLen }
      some (.to (.live { h with vmas := m :: h.vmas, region := region }) k)
  | .unmap h [] => some (.to (.closeFd h) k)
  | .unmap h (m :: vmas) => do
    let (ok, k) ← munmap sys m k
    -- `region_close` returns at the first mapping that is not removed
    some (if ok then .to (.unmap h vmas) k else ⟨.idle, k, [h.fd], m :: vmas⟩)
  | .closeFd h => do
    let (ok, k) ← close sys h.fd k
    if ok then some (.to (if h.region.owned then .unlink h.name else .idle) k)
    else some ⟨.idle, k, keptFd sys h.fd, []⟩
  | .unlink name => some (.to .idle (shmUnlink sys name k))

/-! ### What a process holds -/

/-- The descriptors a process has at a stage. -/
def fdsOf : Stage → List ℕ
  | .truncate _ _ fd | .map _ _ fd | .undo _ fd | .stat _ fd | .mapOpen _ fd _ | .drop fd => [fd]
  | .magic _ h | .version _ h | .check h | .checkVersion h | .live h | .growFile h _
  | .growMap h _ _ | .unmap h _ | .closeFd h => [h.fd]
  | .idle | .wipe _ _ | .create _ _ | .openFile _ | .unlink _ => []

/-- The mappings. -/
def mapsOf : Stage → List ℕ
  | .magic _ h | .version _ h | .check h | .checkVersion h | .live h | .growFile h _
  | .growMap h _ _ => h.vmas
  | .unmap _ vmas => vmas
  | _ => []

/-- The descriptor of a region that the process has made and writes to. -/
def ownFd : Stage → Option ℕ
  | .truncate _ _ fd | .map _ _ fd => some fd
  | .magic _ h | .version _ h | .growFile h _ | .growMap h _ _ => some h.fd
  | .live h => if h.region.owned then some h.fd else none
  | _ => none

/-- Its file. -/
def ownFile (k : Kernel) (stage : Stage) : Option ℕ := (ownFd stage).bind k.fds.cell

theorem ownFd_mem {stage : Stage} {fd : ℕ} (h : ownFd stage = some fd) : fd ∈ fdsOf stage := by
  cases stage with
  | live h =>
    rw [ownFd] at h
    split_ifs at h
    simpa [fdsOf] using (Option.some.inj h).symm
  | _ => simp_all [ownFd, fdsOf]

/-! ### What a process knows -/

/-- A header that `optics_open` accepts. -/
def Accepted (f : ShmFile) : Prop := f.magic = magic ∧ f.version = version

/-- The newest mapping is one of the file behind the descriptor, of the length that is noted. -/
structure Mapped (k : Kernel) (h : Handle) (file : ℕ) (f : ShmFile) : Prop where
  fd : k.fds.cell h.fd = some file
  contents : k.files.cell file = some f
  vma : ∃ m vmas, h.vmas = m :: vmas ∧ k.maps.cell m = some (file, h.region.vmaLen)

/-- The region is one that `region_create` made and `region_grow` has grown, over a file of the
length `n`. -/
def MadeBy (r : Region) (n : ℕ) : Prop :=
  ∃ g, Reachable Created Grow g ∧ g.region = r ∧ g.file.len = n

/-- A region in the hands of its owner. -/
structure Owns (k : Kernel) (h : Handle) (file : ℕ) (f : ShmFile) : Prop where
  mapped : Mapped k h file f
  made : MadeBy h.region f.len
  le : f.len ≤ h.region.vmaLen * 2

/-- The handle of an owner who is in no call, or of a process that has opened the region. -/
inductive Live (k : Kernel) (h : Handle) (file : ℕ) (f : ShmFile) : Prop
  | owner (ho : Owns k h file f)
  | opened (hm : Mapped k h file f) (n : ℕ) (hr : h.region = ⟨false, 0, n, n⟩)

/-- A call of `region_grow` for which the mapping is too short. -/
structure Growing (h : Handle) (len : ℕ) : Prop where
  lt : len < regionDefaultLen
  short : ¬ w64 (h.region.pos + len) ≤ h.region.vmaLen

/-- What a process can rely on at a stage. -/
inductive Ok (k : Kernel) : Stage → Prop
  | idle : Ok k .idle
  | wipe {arg name : CStr} : Ok k (.wipe arg name)
  | create {arg name : CStr} : Ok k (.create arg name)
  | truncate {arg name : CStr} {fd file : ℕ} (hfd : k.fds.cell fd = some file)
      (hf : k.files.cell file = some ⟨0, 0, 0⟩) : Ok k (.truncate arg name fd)
  | map {arg name : CStr} {fd file : ℕ} (hfd : k.fds.cell fd = some file)
      (hf : k.files.cell file = some ⟨regionDefaultLen, 0, 0⟩) : Ok k (.map arg name fd)
  | undo {name : CStr} {fd : ℕ} : Ok k (.undo name fd)
  | magic {arg : CStr} {h : Handle} {file : ℕ} {f : ShmFile} (ho : Owns k h file f) :
      Ok k (.magic arg h)
  | version {arg : CStr} {h : Handle} {file : ℕ} {f : ShmFile} (ho : Owns k h file f)
      (hmagic : f.magic = ShmFiles.magic) (hlen : sizeofHeader ≤ f.len) : Ok k (.version arg h)
  | openFile {name : CStr} : Ok k (.openFile name)
  | stat {name : CStr} {fd : ℕ} : Ok k (.stat name fd)
  | mapOpen {name : CStr} {fd len file : ℕ} {f : ShmFile} (hfd : k.fds.cell fd = some file)
      (hf : k.files.cell file = some f) (hlen : len ≤ f.len) : Ok k (.mapOpen name fd len)
  | drop {fd : ℕ} : Ok k (.drop fd)
  | check {h : Handle} {file n : ℕ} {f : ShmFile} (hm : Mapped k h file f)
      (hr : h.region = ⟨false, 0, n, n⟩) : Ok k (.check h)
  | checkVersion {h : Handle} {file n : ℕ} {f : ShmFile} (hm : Mapped k h file f)
      (hr : h.region = ⟨false, 0, n, n⟩) (hmagic : f.magic = ShmFiles.magic)
      (hlen : sizeofHeader ≤ f.len) : Ok k (.checkVersion h)
  | live {h : Handle} {file : ℕ} {f : ShmFile} (hl : Live k h file f) (hf : Accepted f)
      (hlen : sizeofHeader ≤ f.len) : Ok k (.live h)
  | growFile {h : Handle} {len file : ℕ} {f : ShmFile} (ho : Owns k h file f) (hf : Accepted f)
      (hlen : sizeofHeader ≤ f.len) (hg : Growing h len) : Ok k (.growFile h len)
  | growMap {h : Handle} {len n file : ℕ} {f : ShmFile} (hm : Mapped k h file f)
      (hmade : MadeBy h.region n) (heq : f.len = h.region.vmaLen * 2) (hlt : f.len < 2 ^ 63)
      (hf : Accepted f) (hlen : sizeofHeader ≤ f.len) (hg : Growing h len) :
      Ok k (.growMap h len f.len)
  | unmap {h : Handle} {vmas : List ℕ} : Ok k (.unmap h vmas)
  | closeFd {h : Handle} : Ok k (.closeFd h)
  | unlink {name : CStr} : Ok k (.unlink name)

/-! ### What others do -/

/-- The system after a step of another process: what a process holds is as it was, and so is the
file it has made. -/
structure Frame (k k' : Kernel) (stage : Stage) : Prop where
  fds : ∀ fd ∈ fdsOf stage, k'.fds.cell fd = k.fds.cell fd
  maps : ∀ m ∈ mapsOf stage, k'.maps.cell m = k.maps.cell m
  files : ∀ file f, k.files.cell file = some f → ∃ f', k'.files.cell file = some f' ∧ Grows f f'
  own : ∀ file, ownFile k stage = some file → k'.files.cell file = k.files.cell file

variable {k k' : Kernel} {h : Handle} {file : ℕ} {f : ShmFile} {stage : Stage}

theorem Frame.ownFile_eq (hframe : Frame k k' stage) : ownFile k' stage = ownFile k stage := by
  unfold ownFile
  cases hown : ownFd stage with
  | none => rfl
  | some fd => exact hframe.fds fd (ownFd_mem hown)

theorem Accepted.grows {f' : ShmFile} (hf : Accepted f) (hg : Grows f f') : Accepted f' :=
  ⟨hg.magic hf.1, hg.version hf.2⟩

theorem Mapped.frame (hm : Mapped k h file f) (hframe : Frame k k' stage) (hfd : h.fd ∈ fdsOf stage)
    (hmaps : mapsOf stage = h.vmas) : ∃ f', Mapped k' h file f' ∧ Grows f f' := by
  obtain ⟨m, vmas, hvmas, hcell⟩ := hm.vma
  obtain ⟨f', hf', hgrows⟩ := hframe.files file f hm.contents
  have hmem : m ∈ mapsOf stage := by
    rw [hmaps, hvmas]
    exact List.mem_cons_self
  exact ⟨f', ⟨(hframe.fds _ hfd).trans hm.fd, hf', m, vmas, hvmas,
    (hframe.maps m hmem).trans hcell⟩, hgrows⟩

theorem Mapped.frame_own (hm : Mapped k h file f) (hframe : Frame k k' stage)
    (hfd : ownFd stage = some h.fd) (hmaps : mapsOf stage = h.vmas) : Mapped k' h file f := by
  have hown : ownFile k stage = some file := by
    rw [ownFile, hfd]
    exact hm.fd
  obtain ⟨f', hm', -⟩ := hm.frame hframe (ownFd_mem hfd) hmaps
  have hsame := (hframe.own file hown).trans hm.contents
  cases hm'.contents.symm.trans hsame
  exact hm'

theorem Owns.frame (ho : Owns k h file f) (hframe : Frame k k' stage)
    (hfd : ownFd stage = some h.fd) (hmaps : mapsOf stage = h.vmas) : Owns k' h file f :=
  ⟨ho.mapped.frame_own hframe hfd hmaps, ho.made, ho.le⟩

theorem MadeBy.owned {r : Region} {n : ℕ} (hmade : MadeBy r n) : r.owned = true := by
  obtain ⟨g, hg, rfl, -⟩ := hmade
  exact (RegionThreads.handedOut_of_reachable hg).owner.owned

/-- **What a process relies on is not touched by others.** -/
theorem Ok.frame (hok : Ok k stage) (hframe : Frame k k' stage) : Ok k' stage := by
  cases hok with
  | idle => exact .idle
  | wipe => exact .wipe
  | create => exact .create
  | truncate hfd hf =>
    exact .truncate ((hframe.fds _ (by simp [fdsOf])).trans hfd) ((hframe.own _ hfd).trans hf)
  | map hfd hf =>
    exact .map ((hframe.fds _ (by simp [fdsOf])).trans hfd) ((hframe.own _ hfd).trans hf)
  | undo => exact .undo
  | magic ho => exact .magic (ho.frame hframe rfl rfl)
  | version ho hmagic hlen => exact .version (ho.frame hframe rfl rfl) hmagic hlen
  | openFile => exact .openFile
  | stat => exact .stat
  | mapOpen hfd hf hlen =>
    obtain ⟨f', hf', hgrows⟩ := hframe.files _ _ hf
    exact .mapOpen ((hframe.fds _ (by simp [fdsOf])).trans hfd) hf' (hlen.trans hgrows.len)
  | drop => exact .drop
  | check hm hr =>
    obtain ⟨f', hm', -⟩ := hm.frame hframe (by simp [fdsOf]) rfl
    exact .check hm' hr
  | checkVersion hm hr hmagic hlen =>
    obtain ⟨f', hm', hgrows⟩ := hm.frame hframe (by simp [fdsOf]) rfl
    exact .checkVersion hm' hr (hgrows.magic hmagic) (hlen.trans hgrows.len)
  | live hl hf hlen =>
    cases hl with
    | owner ho =>
      exact .live (.owner (ho.frame hframe (if_pos ho.made.owned) rfl)) hf hlen
    | opened hm n hr =>
      obtain ⟨f', hm', hgrows⟩ := hm.frame hframe (by simp [fdsOf]) rfl
      exact .live (.opened hm' n hr) (hf.grows hgrows) (hlen.trans hgrows.len)
  | growFile ho hf hlen hg => exact .growFile (ho.frame hframe rfl rfl) hf hlen hg
  | growMap hm hmade heq hlt hf hlen hg =>
    exact .growMap (hm.frame_own hframe rfl rfl) hmade heq hlt hf hlen hg
  | unmap => exact .unmap
  | closeFd => exact .closeFd
  | unlink => exact .unlink

end Optics.RegionCalls
