import Optics.RegistryFailure

/-! # Deferred frees in another process

`optics_free_defered` detaches a list of deferred frees and releases what its nodes name, in a
process that may have mapped less of the region than its owner has. `released_iff`: nothing is lost
exactly when all of it is mapped. A node that is not drops the rest of the list, and a block that is
not is dropped by `alloc_free`. -/

namespace Optics.RegistryRelease

open Optics.Base Optics.Lib.Bytes Optics.Lib.LinkedList Optics.Lib.Tiling Optics.Lib.Runs
open Optics.Regions Optics.Allocator Optics.AllocatorInv
open Optics.AllocatorRuns (blockBase)
open Optics.Lenses Optics.LensBlocks Optics.Registry Optics.RegistryInv
open Optics.RegistryOps Optics.RegistryRuns Optics.RegistryWear Optics.RegistryFailure

/-- Every node that was on the list of the epoch, and every block one named, is on a list of the
allocator or still on a list of deferred frees. -/
def NothingLost (o o' : StructOptics) (e : Fin 2) : Prop :=
  ∀ ns, Chain (deferNext o.arena.mem) (o.epochDefers e) ns → ∀ n ∈ ns,
    ∀ b ∈ [(deferOff o.arena.mem n, deferLen o.arena.mem n), (n, sizeofDefer)],
      OnLists o'.arena (b.1, roundLen b.2) ∨ OnDefers o' (b.1, roundLen b.2)

/-- All of them are inside the mapping. -/
def AllMapped (view : Region) (o : StructOptics) (e : Fin 2) : Prop :=
  ∀ ns, Chain (deferNext o.arena.mem) (o.epochDefers e) ns → ∀ n ∈ ns,
    ∀ b ∈ [(deferOff o.arena.mem n, deferLen o.arena.mem n), (n, sizeofDefer)], Mapped view b

section Release
variable {o : StructOptics} {ls : List Lens} {D : Fin 2 → List Defer} {lost : List Block}
  {A F : Fin allocClasses → List ℕ}

theorem forall_defer_blocks (h : Inv o ls D lost A F) (e : Fin 2) (P : Block → Prop) :
    (∀ ns, Chain (deferNext o.arena.mem) (o.epochDefers e) ns → ∀ n ∈ ns,
      ∀ b ∈ [(deferOff o.arena.mem n, deferLen o.arena.mem n), (n, sizeofDefer)], P b) ↔
      ∀ b ∈ (D e).flatMap Defer.blocks, P b := by
  have hfields : ∀ d ∈ D e,
      [(deferOff o.arena.mem d.node, deferLen o.arena.mem d.node), (d.node, sizeofDefer)] =
        d.blocks := by
    intro d hd
    obtain ⟨h1, h2⟩ := h.deferred.fields e d hd
    rw [h1, h2]
    rfl
  constructor
  · intro hP b hb
    obtain ⟨d, hd, hb⟩ := List.mem_flatMap.mp hb
    exact hP _ (h.deferred.chain e) d.node (List.mem_map_of_mem hd) b (by rw [hfields d hd]; exact hb)
  · intro hP ns hc n hn b hb
    rw [hc.unique (h.deferred.chain e)] at hn
    obtain ⟨d, hd, rfl⟩ := List.mem_map.mp hn
    rw [hfields d hd] at hb
    exact hP b (List.mem_flatMap.mpr ⟨d, hd, hb⟩)

theorem not_on_lists_of_lost (h : Inv o ls D lost A F) {b : Block} (hb : b ∈ lost) :
    ¬ (OnLists o.arena (b.1, roundLen b.2) ∨ OnDefers o (b.1, roundLen b.2)) := by
  have hcov : Covers (b.1, roundLen b.2) b.1 := by
    have hpos : 0 < roundLen b.2 := classLen_pos _
    exact ⟨le_rfl, by dsimp only; omega⟩
  have hun : Unreached o b.1 :=
    (unreached_iff h b.1).mpr (cover_pos (mem_liveBlocks hb) hcov).ne'
  rintro (hon | hon)
  · exact hun.2.2 _ (Or.inr (Or.inr hon)) hcov
  · exact hun.2.2 _ (Or.inr (Or.inl hon)) hcov

/-- **What is lost is what the process could not reach.** -/
theorem Drained.nothingLost_iff {view : Region} {e : Fin 2} {o' : StructOptics} {kept : List Block}
    {F' : Fin allocClasses → List ℕ} (h : Inv o ls D lost A F)
    (hd : Drained o ls D lost A F view e o' kept F') : NothingLost o o' e ↔ kept = [] := by
  refine (forall_defer_blocks h e _).trans ⟨fun hall => ?_, fun hk b hb => ?_⟩
  · by_contra hne
    obtain ⟨b, hb⟩ := List.exists_mem_of_ne_nil kept hne
    exact not_on_lists_of_lost hd.inv (List.mem_append_left _ hb) (hall b (hd.released.sub hb))
  · rcases hd.released.freed b hb with hkept | hfree
    · rw [hk] at hkept
      exact absurd hkept List.not_mem_nil
    · exact Or.inl ((onLists_iff hd.inv _).mpr (List.mem_append_right _ (mem_listBlocks hfree)))

end Release

/-- **When a release loses nothing.** In every reachable state, for both epochs and every mapping of
the process that releases: when all nodes and all blocks they name are mapped. -/
theorem released_iff {s : State} (h : Reachable Start Step s) (view : Region) (e : Fin 2) :
    ∃ o', opticsFreeDefered (s.optics.seenBy view) e = .ok o' ∧
      (NothingLost s.optics o' e ↔ AllMapped view s.optics e) := by
  obtain ⟨ls, D, lost, A, F, hi, -⟩ := exists_inv h
  obtain ⟨o', kept, F', hrun, -, -, hd⟩ := opticsFreeDefered_spec hi view e
  refine ⟨o'.seenBy view, hrun, ?_⟩
  have hiff := (Drained.nothingLost_iff hi hd).trans hd.released.all
  exact hiff.trans (forall_defer_blocks hi e (Mapped view)).symm

/-- The same of a lens that was registered and freed, through a mapping of one page. -/
theorem released_iff_first : ∃ o1 r o2 o',
    opticsTypedAlloc ⟨true, true⟩ fresh.optics ⟨[97], by decide⟩ .dist = .ok (some 704, o1) ∧
      opticsLensFree ⟨true, true⟩ o1 704 = .ok (r, o2) ∧
      opticsFreeDefered (o2.seenBy (openedRegion 4096)) 0 = .ok o' ∧
      (NothingLost o2 o' 0 ↔ AllMapped (openedRegion 4096) o2 0) := by
  obtain ⟨o1, ho⟩ := alloc_fresh
  have hstep : Step fresh ⟨o1, [704]⟩ := Step.alloc ho
  have hreach := (Reachable.of_start start_fresh).tail hstep
  obtain ⟨ls, hh⟩ := exists_inv hreach
  obtain ⟨r, o2, hfree⟩ := (unfailing_of_holds hh).free ⟨true, true⟩ 704
    List.mem_cons_self
  have hstep2 : Step ⟨o1, [704]⟩ ⟨o2, []⟩ := Step.free List.mem_cons_self hfree
  obtain ⟨o', hrun, hiff⟩ := released_iff (hreach.tail hstep2) (openedRegion 4096) 0
  exact ⟨o1, r, o2, o', ho, hfree, hrun, hiff⟩

/-- **A release that loses memory.** The process opened the region when it had just been created;
its owner has grown it since, and the newest node lies in the part gained. -/
theorem release_loses : ∃ s o', Relation.ReflTransGen Step fresh s ∧
    opticsFreeDefered (s.optics.seenBy (openedRegion fresh.optics.arena.file.len)) 0 = .ok o' ∧
    ¬ NothingLost s.optics o' 0 := by
  obtain ⟨s, D, A, F, q, j, hs, hw⟩ := worn_run ⟨true, true⟩ 9216 le_rfl
  have hbase : blockBase = 704 := by decide
  have hdef : regionDefaultLen = 1048576 := rfl
  obtain ⟨hi, hregs, hepoch, hvma, hpos, hrounds, hleft, hlenses, hnodes, -⟩ := hw
  -- the lens makes the owner grow the region
  have hnot : ¬ RefusedArgs ⟨true, true⟩ s.optics.arena wearName .gauge := by
    refine notRefused_wear ?_
    rw [hi.arena.exhausted_iff]
    exact fun h => h.2 (Or.inr ⟨rfl, rfl, by omega⟩)
  obtain ⟨off, o1, A1, F1, -, hstep1, hi1, hepoch1, htook1, -⟩ := register_empty hi hregs hnot
  have htook1 : Took s.optics.arena.region A F 74 off o1.arena.region A1 F1 := htook1
  have hnodes1 := htook1.others (classOf sizeofDefer) (by decide)
  have hpos1 : o1.arena.region.pos = 1053376 ∧ o1.arena.region.vmaLen = 2097152 := by
    rcases htook1.served with ⟨h1, -⟩ | ⟨-, -, -, h4, h5⟩
    · omega
    · unfold Region.grownLen at h5
      rw [slabLens_eq] at h4 h5
      rw [if_neg (by omega)] at h5
      omega
  -- its node lies behind the old end
  have hex : ¬ Exhausted ⟨true, true⟩ o1.arena sizeofDefer := by
    rw [hi1.arena.exhausted_iff, slabDefer_eq]
    exact fun h => h.2 (Or.inl (by omega))
  obtain ⟨node, o2, A2, F2, hstep2, hi2, -, htook2⟩ := free_only (s := ⟨o1, [off]⟩) hi1 rfl hex
  have hnode : node = 1053376 := by
    rcases htook2.served with ⟨h1, -⟩ | ⟨-, h2, -⟩
    · omega
    · exact h2.trans hpos1.1
  have hrun : Relation.ReflTransGen Step fresh ⟨o2, []⟩ := (hs.tail hstep1).tail hstep2
  obtain ⟨o', hfree, hiff⟩ := released_iff (reachable_of_fresh hrun)
    (openedRegion fresh.optics.arena.file.len) 0
  refine ⟨⟨o2, []⟩, o', hrun, hfree, fun hlost => ?_⟩
  have hmapped := (forall_defer_blocks hi2 0 _).mp (hiff.mp hlost) (node, sizeofDefer) ?_
  · unfold Mapped at hmapped
    rw [regionPtr_isSome (by rw [hnode]; decide), hnode] at hmapped
    exact absurd hmapped.2 (by decide)
  · have he : opticsEpoch o1 = 0 := by
      unfold opticsEpoch
      simp only [hepoch1, hepoch]
      rfl
    refine List.mem_flatMap.mpr ⟨⟨node, off, (wearLens off).total⟩, ?_, Defer.node_mem _⟩
    dsimp only
    rw [he, Function.update_self]
    exact List.mem_cons_self

end Optics.RegistryRelease
