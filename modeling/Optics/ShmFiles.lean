import Optics.Base
import Optics.Lib.Holdings

/-! # Files in shared memory, descriptors and mappings

What the system calls of `region.c` act on: the names in `/dev/shm`, the files, which outlive their
names, the open descriptors and the mappings, all of them numbered as they are made. Which of the
calls succeed is given by a `Sys`; a call on a descriptor or mapping that is not there has no
result.

Each call is made for a party that holds descriptors and mappings. `Moves` says what it does to the
books of who holds what (`Kernel.Sound`), and that it leaves alone what other parties hold. -/

namespace Optics.ShmFiles

open Optics.Base Optics.Lib.Blocks Optics.Lib.Holdings

/-- `magic` of `optics.c`. -/
def magic : ℕ := 0x044b33f12afe7de0

/-- `version`. -/
def version : ℕ := 2

/-- A file: its length, and the words at the beginning of its header. -/
structure ShmFile where
  len : ℕ
  magic : ℕ
  version : ℕ

/-- The number of the file behind a name and behind a descriptor; file and length of a mapping. -/
structure Kernel where
  dir : CStr → Option ℕ
  files : Heap ShmFile
  fds : Heap ℕ
  maps : Heap (ℕ × ℕ)

/-- How a call ends: whether it succeeds, and whether a descriptor that `close` fails on stays
open. -/
structure Sys where
  ok : Bool
  kept : Bool

/-! ### System calls -/

/-- `shm_unlink`. -/
def shmUnlink (sys : Sys) (name : CStr) (k : Kernel) : Kernel :=
  if sys.ok then { k with dir := Function.update k.dir name none } else k

/-- `shm_open` with `O_CREAT | O_EXCL`. -/
def shmCreate (sys : Sys) (name : CStr) (k : Kernel) : Option (ℕ × Kernel) :=
  if sys.ok = false ∨ (k.dir name).isSome then none
  else
    let (file, files) := alloc k.files ⟨0, 0, 0⟩
    let (fd, fds) := alloc k.fds file
    some (fd, { k with dir := Function.update k.dir name (some file), files := files, fds := fds })

/-- `shm_open` of a file that is there. -/
def shmOpen (sys : Sys) (name : CStr) (k : Kernel) : Option (ℕ × Kernel) :=
  match k.dir name with
  | none => none
  | some file =>
    if sys.ok then
      let (fd, fds) := alloc k.fds file
      some (fd, { k with fds := fds })
    else none

def Kernel.setFile (k : Kernel) (file : ℕ) (f : ShmFile) : Kernel :=
  { k with files := ⟨k.files.next, Function.update k.files.cell file (some f)⟩ }

/-- `ftruncate`. -/
def ftruncate (sys : Sys) (fd len : ℕ) (k : Kernel) : Option (Bool × Kernel) := do
  let file ← k.fds.cell fd
  let f ← k.files.cell file
  if sys.ok then some (true, k.setFile file { f with len := len }) else some (false, k)

/-- `fstat`, of which the length is used. -/
def fstat (sys : Sys) (fd : ℕ) (k : Kernel) : Option (Option ℕ) := do
  let file ← k.fds.cell fd
  let f ← k.files.cell file
  some (if sys.ok then some f.len else none)

/-- `mmap`, which refuses to map no bytes. -/
def mmap (sys : Sys) (fd len : ℕ) (k : Kernel) : Option (Option ℕ × Kernel) := do
  let file ← k.fds.cell fd
  if sys.ok = true ∧ 0 < len then
    let (m, maps) := alloc k.maps (file, len)
    some (some m, { k with maps := maps })
  else some (none, k)

/-- `munmap`. -/
def munmap (sys : Sys) (m : ℕ) (k : Kernel) : Option (Bool × Kernel) := do
  let _ ← k.maps.cell m
  if sys.ok then
    let maps ← free k.maps m
    some (true, { k with maps := maps })
  else some (false, k)

/-- `close`. -/
def close (sys : Sys) (fd : ℕ) (k : Kernel) : Option (Bool × Kernel) := do
  let _ ← k.fds.cell fd
  if sys.ok = false ∧ sys.kept = true then some (false, k)
  else
    let fds ← free k.fds fd
    some (sys.ok, { k with fds := fds })

/-- The descriptor that a failing `close` leaves open. -/
def keptFd (sys : Sys) (fd : ℕ) : List ℕ := if sys.ok = false ∧ sys.kept = true then [fd] else []

/-- The header seen through a mapping. -/
def header (m : ℕ) (k : Kernel) : Option ShmFile := do
  let (file, _) ← k.maps.cell m
  k.files.cell file

/-- A store into the header through a mapping. -/
def setHeader (m : ℕ) (f : ShmFile → ShmFile) (k : Kernel) : Option Kernel := do
  let (file, _) ← k.maps.cell m
  let old ← k.files.cell file
  some (k.setFile file (f old))

/-- What is left when a process ends: its descriptors and mappings are gone. -/
def exit (fds maps : List ℕ) (k : Kernel) : Option Kernel := do
  let fds ← freeAll fds k.fds
  let maps ← freeAll maps k.maps
  some { k with fds := fds, maps := maps }

/-! ### Who holds what -/

/-- The descriptors and mappings that there are are held, each by one party; they lead to files, and
no mapping is longer than its file. -/
structure Kernel.Sound (k : Kernel) (fds maps : ℕ → List ℕ) : Prop where
  fds : Held k.fds fds
  maps : Held k.maps maps
  fresh : Fresh k.files
  dir : ∀ name file, k.dir name = some file → ∃ f, k.files.cell file = some f
  fd : ∀ fd file, k.fds.cell fd = some file → ∃ f, k.files.cell file = some f
  map : ∀ m file len, k.maps.cell m = some (file, len) →
    ∃ f, k.files.cell file = some f ∧ len ≤ f.len

/-- A file has changed in the ways its creator changes it. -/
structure Grows (f f' : ShmFile) : Prop where
  len : f.len ≤ f'.len
  magic : f.magic = magic → f'.magic = magic
  version : f.version = version → f'.version = version

theorem Grows.refl (f : ShmFile) : Grows f f := ⟨le_rfl, id, id⟩

/-- What a party does leaves alone the descriptors and mappings of others, and all files but the one
that it made, which it changes as creators do. -/
structure Apart (k k' : Kernel) (fds maps : List ℕ) (own : Option ℕ) : Prop where
  fds : ∀ fd, fd ∉ fds → (k.fds.cell fd).isSome → k'.fds.cell fd = k.fds.cell fd
  maps : ∀ m, m ∉ maps → (k.maps.cell m).isSome → k'.maps.cell m = k.maps.cell m
  files : ∀ file f, k.files.cell file = some f → ∃ f', k'.files.cell file = some f' ∧ Grows f f'
  others : ∀ file, own ≠ some file → (k.files.cell file).isSome →
    k'.files.cell file = k.files.cell file

/-- **What a call of a party does** that held some descriptors and mappings and now holds others. -/
structure Moves (i : ℕ) (k k' : Kernel) (fds maps : ℕ → List ℕ) (own : Option ℕ)
    (fds' maps' : List ℕ) : Prop where
  sound : k'.Sound (Function.update fds i fds') (Function.update maps i maps')
  apart : Apart k k' (fds i) (maps i) own

section Calls
variable {sys : Sys} {k k' : Kernel} {fds maps : ℕ → List ℕ} {i : ℕ} {own : Option ℕ}

theorem Kernel.Sound.moves (h : k.Sound fds maps) {dir : CStr → Option ℕ}
    (hdir : ∀ name file, dir name = some file → ∃ f, k.files.cell file = some f)
    {fds' maps' : List ℕ} (hfds : fds'.Perm (fds i)) (hmaps : maps'.Perm (maps i)) :
    Moves i k { k with dir := dir } fds maps own fds' maps' where
  sound := ⟨h.fds.keep hfds, h.maps.keep hmaps, h.fresh, hdir, h.fd, h.map⟩
  apart := ⟨fun _ _ _ => rfl, fun _ _ _ => rfl, fun _ f hf => ⟨f, hf, Grows.refl f⟩,
    fun _ _ _ => rfl⟩

theorem Kernel.Sound.refl (h : k.Sound fds maps) {fds' maps' : List ℕ} (hfds : fds'.Perm (fds i))
    (hmaps : maps'.Perm (maps i)) : Moves i k k fds maps own fds' maps' := h.moves h.dir hfds hmaps

theorem moves_shmUnlink (h : k.Sound fds maps) (sys : Sys) (name : CStr) :
    Moves i k (shmUnlink sys name k) fds maps own (fds i) (maps i) := by
  unfold shmUnlink
  split_ifs
  · refine h.moves (fun n file hn => ?_) (List.Perm.refl _) (List.Perm.refl _)
    by_cases hname : n = name
    · simp [hname] at hn
    · rw [Function.update_of_ne hname] at hn
      exact h.dir n file hn
  · exact h.refl (List.Perm.refl _) (List.Perm.refl _)

theorem alloc_old {α : Type*} {h : Heap α} (hf : Fresh h) (a : α) {p : ℕ} {b : α}
    (hp : h.cell p = some b) : (alloc h a).2.cell p = some b := by
  have hne : p ≠ h.next := by
    rintro rfl
    rw [hf _ le_rfl] at hp
    cases hp
  rw [alloc_cell_of_ne h a hne, hp]

theorem fresh_alloc {α : Type*} {h : Heap α} (hf : Fresh h) (a : α) : Fresh (alloc h a).2 := by
  intro p hp
  have hlt : h.next < p := hp
  rw [alloc_cell_of_ne h a hlt.ne']
  exact hf p hlt.le

/-- **A new file** that nobody else has made. -/
theorem moves_shmCreate (h : k.Sound fds maps) {name : CStr} {fd : ℕ}
    (hc : shmCreate sys name k = some (fd, k')) : ∃ file, k.files.cell file = none ∧
      k'.files.cell file = some ⟨0, 0, 0⟩ ∧ k'.fds.cell fd = some file ∧
      k'.dir name = some file ∧ Moves i k k' fds maps own (fd :: fds i) (maps i) := by
  unfold shmCreate at hc
  split_ifs at hc
  cases hc
  have hold {file : ℕ} {f : ShmFile} := alloc_old h.fresh (⟨0, 0, 0⟩ : ShmFile) (p := file) (b := f)
  have hnew := alloc_cell k.files (⟨0, 0, 0⟩ : ShmFile)
  refine ⟨k.files.next, h.fresh _ le_rfl, hnew, alloc_cell _ _, Function.update_self _ _ _,
    ⟨h.fds.alloc _ (List.Perm.refl _), h.maps.keep (List.Perm.refl _), fresh_alloc h.fresh _,
      fun n file hn => ?_, fun fd file hfd => ?_, fun m file len hm => ?_⟩,
    ⟨fun fd _ hfd => ?_, fun _ _ _ => rfl, fun file f hf => ⟨f, hold hf, Grows.refl f⟩,
      fun file _ hf => ?_⟩⟩
  · dsimp only at hn
    by_cases hname : n = name
    · rw [hname, Function.update_self] at hn
      cases hn
      exact ⟨_, hnew⟩
    · rw [Function.update_of_ne hname] at hn
      obtain ⟨f, hf⟩ := h.dir n file hn
      exact ⟨f, hold hf⟩
  · by_cases hfresh : fd = k.fds.next
    · rw [hfresh] at hfd
      cases (alloc_cell k.fds k.files.next).symm.trans hfd
      exact ⟨_, hnew⟩
    · obtain ⟨f, hf⟩ := h.fd fd file ((alloc_cell_of_ne k.fds _ hfresh).symm.trans hfd)
      exact ⟨f, hold hf⟩
  · obtain ⟨f, hf, hlen⟩ := h.map m file len hm
    exact ⟨f, hold hf, hlen⟩
  · obtain ⟨file, hfile⟩ := Option.isSome_iff_exists.mp hfd
    rw [hfile]
    exact alloc_old h.fds.fresh _ hfile
  · obtain ⟨f, hf'⟩ := Option.isSome_iff_exists.mp hf
    rw [hf']
    exact hold hf'

theorem moves_shmOpen (h : k.Sound fds maps) {name : CStr} {fd : ℕ}
    (hc : shmOpen sys name k = some (fd, k')) : ∃ file, k'.fds.cell fd = some file ∧
      Moves i k k' fds maps own (fd :: fds i) (maps i) := by
  unfold shmOpen at hc
  split at hc
  · cases hc
  · rename_i file hname
    split_ifs at hc
    cases hc
    refine ⟨file, alloc_cell _ _, ⟨h.fds.alloc _ (List.Perm.refl _), h.maps.keep (List.Perm.refl _),
      h.fresh, h.dir, fun fd file' hfd => ?_, h.map⟩,
      ⟨fun fd _ hfd => ?_, fun _ _ _ => rfl, fun _ f hf => ⟨f, hf, Grows.refl f⟩, fun _ _ _ => rfl⟩⟩
    · by_cases hfresh : fd = k.fds.next
      · rw [hfresh] at hfd
        cases (alloc_cell k.fds file).symm.trans hfd
        exact h.dir name file hname
      · exact h.fd fd file' ((alloc_cell_of_ne k.fds _ hfresh).symm.trans hfd)
    · obtain ⟨file', hfile⟩ := Option.isSome_iff_exists.mp hfd
      rw [hfile]
      exact alloc_old h.fds.fresh _ hfile

theorem setFile_self (k : Kernel) (file : ℕ) (f : ShmFile) :
    (k.setFile file f).files.cell file = some f := Function.update_self _ _ _

theorem setFile_of_ne (k : Kernel) {file file' : ℕ} (f : ShmFile) (h : file' ≠ file) :
    (k.setFile file f).files.cell file' = k.files.cell file' := Function.update_of_ne h _ _

/-- **A file is changed** by who made it. -/
theorem moves_setFile (h : k.Sound fds maps) {file : ℕ} {f f' : ShmFile}
    (hf : k.files.cell file = some f) (hgrows : Grows f f') (hown : own = some file) :
    Moves i k (k.setFile file f') fds maps own (fds i) (maps i) := by
  have hfile {file' : ℕ} {g : ShmFile} (hg : k.files.cell file' = some g) :
      ∃ g', (k.setFile file f').files.cell file' = some g' ∧ Grows g g' := by
    by_cases hne : file' = file
    · rw [hne] at hg ⊢
      cases hf.symm.trans hg
      exact ⟨f', setFile_self k file f', hgrows⟩
    · exact ⟨g, (setFile_of_ne k f' hne).trans hg, Grows.refl g⟩
  refine ⟨⟨h.fds.keep (List.Perm.refl _), h.maps.keep (List.Perm.refl _), fun p hp => ?_,
    fun n file' hn => ?_, fun fd file' hfd => ?_, fun m file' len hm => ?_⟩,
    ⟨fun _ _ _ => rfl, fun _ _ _ => rfl, fun _ _ hg => hfile hg, fun file' hne _ => ?_⟩⟩
  · have hne : p ≠ file := by
      rintro rfl
      rw [h.fresh p hp] at hf
      cases hf
    rw [setFile_of_ne k f' hne]
    exact h.fresh p hp
  · obtain ⟨g, hg⟩ := h.dir n file' hn
    exact (hfile hg).imp fun _ hg => hg.1
  · obtain ⟨g, hg⟩ := h.fd fd file' hfd
    exact (hfile hg).imp fun _ hg => hg.1
  · obtain ⟨g, hg, hlen⟩ := h.map m file' len hm
    obtain ⟨g', hg', hgrows'⟩ := hfile hg
    exact ⟨g', hg', hlen.trans hgrows'.len⟩
  · rw [setFile_of_ne k f']
    rintro rfl
    exact hne hown

/-- **A mapping** no longer than the file. -/
theorem moves_mmap (h : k.Sound fds maps) {fd file len : ℕ} {f : ShmFile}
    (hfd : k.fds.cell fd = some file) (hf : k.files.cell file = some f) (hlen : len ≤ f.len)
    (sys : Sys) : mmap sys fd len k = some (none, k) ∨
      ∃ m k', mmap sys fd len k = some (some m, k') ∧ k'.fds = k.fds ∧ k'.files = k.files ∧
        k'.maps.cell m = some (file, len) ∧
      Moves i k k' fds maps own (fds i) (m :: maps i) := by
  unfold mmap
  simp only [hfd, Option.bind_eq_bind, Option.bind_some]
  split_ifs
  · refine Or.inr ⟨_, _, rfl, rfl, rfl, alloc_cell _ _, ⟨h.fds.keep (List.Perm.refl _),
      h.maps.alloc _ (List.Perm.refl _), h.fresh, h.dir, h.fd, fun m file' len' hm => ?_⟩,
      ⟨fun _ _ _ => rfl, fun m _ hm => ?_, fun _ g hg => ⟨g, hg, Grows.refl g⟩, fun _ _ _ => rfl⟩⟩
    · by_cases hfresh : m = k.maps.next
      · rw [hfresh] at hm
        cases (alloc_cell k.maps (file, len)).symm.trans hm
        exact ⟨f, hf, hlen⟩
      · exact h.map m file' len' ((alloc_cell_of_ne k.maps _ hfresh).symm.trans hm)
    · obtain ⟨x, hx⟩ := Option.isSome_iff_exists.mp hm
      rw [hx]
      exact alloc_old h.maps.fresh _ hx
  · exact Or.inl rfl

theorem Kernel.Sound.fewer (h : k.Sound fds maps) {fds' maps' : List ℕ} {newFds : Heap ℕ}
    {newMaps : Heap (ℕ × ℕ)} (hfds : Held newFds (Function.update fds i fds'))
    (hmaps : Held newMaps (Function.update maps i maps'))
    (hfd : ∀ fd file, newFds.cell fd = some file → k.fds.cell fd = some file)
    (hmap : ∀ m x, newMaps.cell m = some x → k.maps.cell m = some x)
    (hfd' : ∀ fd, fd ∉ fds i → newFds.cell fd = k.fds.cell fd)
    (hmap' : ∀ m, m ∉ maps i → newMaps.cell m = k.maps.cell m) :
    Moves i k { k with fds := newFds, maps := newMaps } fds maps own fds' maps' where
  sound := ⟨hfds, hmaps, h.fresh, h.dir, fun fd file hc => h.fd fd file (hfd fd file hc),
    fun m file len hc => h.map m file len (hmap m _ hc)⟩
  apart := ⟨fun fd hn _ => hfd' fd hn, fun m hn _ => hmap' m hn,
    fun _ f hf => ⟨f, hf, Grows.refl f⟩, fun _ _ _ => rfl⟩

theorem cell_of_free {α : Type*} {h h' : Heap α} {p : ℕ} (hfree : free h p = some h') {q : ℕ}
    {a : α} (hq : h'.cell q = some a) : h.cell q = some a := by
  unfold free at hfree
  split_ifs at hfree
  cases hfree
  dsimp only at hq
  split_ifs at hq
  exact hq

theorem cell_of_freeAll {α : Type*} {q : ℕ} {a : α} : ∀ {ps : List ℕ} {h h' : Heap α},
    freeAll ps h = some h' → h'.cell q = some a → h.cell q = some a
  | [], h, h', hfree, hq => by
    cases hfree
    exact hq
  | p :: ps, h, h', hfree, hq => by
    obtain ⟨h1, hfree1, hrest⟩ := Option.bind_eq_some_iff.mp hfree
    exact cell_of_free hfree1 (cell_of_freeAll hrest hq)

/-- **A mapping is removed**, or stays. -/
theorem moves_munmap (h : k.Sound fds maps) {m : ℕ} {rest : List ℕ}
    (hl : (maps i).Perm (m :: rest)) (sys : Sys) : munmap sys m k = some (false, k) ∨
      ∃ k', munmap sys m k = some (true, k') ∧ k'.fds = k.fds ∧ k'.files = k.files ∧
        Moves i k k' fds maps own (fds i) rest := by
  have hm : m ∈ maps i := hl.mem_iff.mpr List.mem_cons_self
  obtain ⟨x, hx⟩ := Option.isSome_iff_exists.mp (h.maps.isSome hm)
  obtain ⟨maps', hfree, hheld, hframe⟩ := h.maps.free hl
  unfold munmap
  simp only [hx, hfree, Option.bind_eq_bind, Option.bind_some]
  split_ifs
  · refine Or.inr ⟨_, rfl, rfl, rfl, h.fewer (h.fds.keep (List.Perm.refl _)) hheld
      (fun _ _ hc => hc) (fun _ _ hc => cell_of_free hfree hc) (fun _ _ => rfl) fun q hq => ?_⟩
    exact hframe q (ne_of_mem_of_not_mem hm hq).symm
  · exact Or.inl rfl

/-- **A descriptor is closed**, or stays open if `close` fails so. -/
theorem moves_close (h : k.Sound fds maps) {fd : ℕ} {rest : List ℕ}
    (hl : (fds i).Perm (fd :: rest)) (sys : Sys) : ∃ ok k', close sys fd k = some (ok, k') ∧
      (ok = true → keptFd sys fd = []) ∧
      Moves i k k' fds maps own (keptFd sys fd ++ rest) (maps i) := by
  have hfd : fd ∈ fds i := hl.mem_iff.mpr List.mem_cons_self
  obtain ⟨x, hx⟩ := Option.isSome_iff_exists.mp (h.fds.isSome hfd)
  obtain ⟨fds', hfree, hheld, hframe⟩ := h.fds.free hl
  unfold close keptFd
  simp only [hx, hfree, Option.bind_eq_bind, Option.bind_some]
  split_ifs
  · exact ⟨false, k, rfl, Bool.false_ne_true, h.refl hl.symm (List.Perm.refl _)⟩
  · refine ⟨_, _, rfl, fun _ => rfl, h.fewer hheld (h.maps.keep (List.Perm.refl _))
      (fun _ _ hc => cell_of_free hfree hc) (fun _ _ hc => hc) (fun q hq => ?_) fun _ _ => rfl⟩
    exact hframe q (ne_of_mem_of_not_mem hfd hq).symm

/-- **A process ends.** -/
theorem moves_exit (own : Option ℕ) (h : k.Sound fds maps) :
    ∃ k', exit (fds i) (maps i) k = some k' ∧ k'.dir = k.dir ∧ Moves i k k' fds maps own [] [] := by
  obtain ⟨fds', hfree, hheld, hframe⟩ := h.fds.freeAll (i := i)
  obtain ⟨maps', hfreeM, hheldM, hframeM⟩ := h.maps.freeAll (i := i)
  refine ⟨{ k with fds := fds', maps := maps' }, ?_, rfl, h.fewer hheld hheldM
    (fun _ _ hc => cell_of_freeAll hfree hc) (fun _ _ hc => cell_of_freeAll hfreeM hc) hframe
    hframeM⟩
  simp only [exit, hfree, hfreeM, Option.bind_eq_bind, Option.bind_some]

/-! ### Calls on a file that is there -/

section File
variable {fd m file len : ℕ} {f : ShmFile}

theorem ftruncate_eq (sys : Sys) (hfd : k.fds.cell fd = some file)
    (hf : k.files.cell file = some f) (len : ℕ) : ftruncate sys fd len k =
      some (if sys.ok then (true, k.setFile file { f with len := len }) else (false, k)) := by
  unfold ftruncate
  simp only [hfd, hf, Option.bind_eq_bind, Option.bind_some]
  split_ifs <;> rfl

theorem fstat_eq (sys : Sys) (hfd : k.fds.cell fd = some file) (hf : k.files.cell file = some f) :
    fstat sys fd k = some (if sys.ok then some f.len else none) := by
  simp only [fstat, hfd, hf, Option.bind_eq_bind, Option.bind_some]

theorem header_eq (hm : k.maps.cell m = some (file, len)) (hf : k.files.cell file = some f) :
    header m k = some f := by
  simp only [header, hm, hf, Option.bind_eq_bind, Option.bind_some]

theorem setHeader_eq (hm : k.maps.cell m = some (file, len)) (hf : k.files.cell file = some f)
    (g : ShmFile → ShmFile) : setHeader m g k = some (k.setFile file (g f)) := by
  simp only [setHeader, hm, hf, Option.bind_eq_bind, Option.bind_some]

end File

end Calls

end Optics.ShmFiles
