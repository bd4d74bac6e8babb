import Optics.RegistryRuns

/-! # Wearing a region down

A lens that is registered and freed over and over, no epoch passing, takes a new block and a new node
each time. `worn_run` follows such a run: after `k` rounds the region's position and the number of
free blocks of the two classes are known, as long as the region need not grow. The states a region
reaches when it is nearly used up are built from it. -/

namespace Optics.RegistryWear

open Optics.Base Optics.Lib.Bytes Optics.Lib.Tiling Optics.Lib.Runs
open Optics.Regions Optics.Allocator Optics.AllocatorInv
open Optics.AllocatorRuns (blockBase)
open Optics.Lenses Optics.LensBlocks Optics.Registry Optics.RegistryInv
open Optics.RegistryOps Optics.RegistryRuns Optics.Utils.Htables

/-- The name that is registered over and over. -/
def wearName : CStr := nameA

/-- A name of `n` letters. -/
def letters (n : ℕ) : CStr :=
  ⟨List.replicate n 120, fun h => absurd (List.eq_of_mem_replicate h) (by decide)⟩

@[simp] theorem letters_length (n : ℕ) : (letters n).val.length = n := List.length_replicate ..

theorem letters_strnlen {n m : ℕ} (h : n ≤ m) : (letters n).strnlen m = n := by
  unfold CStr.strnlen
  rw [letters_length, Nat.min_eq_left h]

/-- No file can be grown. -/
def noGrow : GrowEnv := ⟨false, false⟩

/-- The lens of a round. -/
def wearLens (off : ℕ) : Lens := newLens off LensArgs.gauge.dataLen wearName

theorem slabLens_eq : slabLen 74 = 20480 := by decide
theorem slabDefer_eq : slabLen sizeofDefer = 8192 := by decide

/-- After `k` rounds, `q` slabs were cut for the lenses and as many for the nodes, and `j` blocks of
either are left. -/
structure Worn (k : ℕ) (s : State) (D : Fin 2 → List Defer) (A F : Fin allocClasses → List ℕ)
    (q j : ℕ) : Prop where
  inv : Inv s.optics [] D [] A F
  regs : s.regs = []
  epoch : s.optics.epoch = 0
  vmaLen : s.optics.arena.region.vmaLen = regionDefaultLen
  pos : s.optics.arena.region.pos = blockBase + (20480 + 8192) * q
  rounds : 256 * q = k + j
  left : j < 256
  lenses : avail A F (classOf 74) = j
  nodes : avail A F (classOf sizeofDefer) = j
  others : ∀ c, c ≠ classOf 74 → c ≠ classOf sizeofDefer → avail A F c = 0

section Wear
variable {k : ℕ} {s : State} {D : Fin 2 → List Defer} {A F : Fin allocClasses → List ℕ} {q j : ℕ}

/-- A lens is registered in an empty registry if a block for it can be had. -/
theorem register_empty {lost : List Block} (hi : Inv s.optics [] D lost A F) (hregs : s.regs = [])
    {env : GrowEnv} {name : CStr} {args : LensArgs}
    (hr : ¬ RefusedArgs env s.optics.arena name args) :
    ∃ off o' A' F', opticsTypedAlloc env s.optics name args = .ok (some off, o') ∧
      Step s ⟨o', [off]⟩ ∧ Inv o' [newLens off args.dataLen name] D lost A' F' ∧
      o'.epoch = s.optics.epoch ∧
      Took s.optics.arena.region A F (newLens off args.dataLen name).total off o'.arena.region
        A' F' ∧
      htablePut htableHash s.optics.keys (name.take opticsNameMaxLen) off =
        .ok (o'.keys, ⟨true, 0⟩) := by
  have hnew : ¬ Taken [] (name.take opticsNameMaxLen) := by
    rintro ⟨l, hl, -⟩
    exact absurd hl List.not_mem_nil
  rcases (opticsTypedAlloc_spec hi env name args).fresh hr hnew with ⟨-, hput⟩ | ⟨off, o', A', F', hrun,
    hi', hepoch, -, htook, hput⟩
  · exact absurd (keys_put_empty hi.keys _) hput
  · have hstep := Step.alloc hrun
    rw [hregs] at hstep
    exact ⟨off, o', A', F', hrun, hstep, hi', hepoch, htook, hput⟩

/-- The only lens is freed if a node for it can be had. -/
theorem free_only {lost : List Block} {l : Lens} (hi : Inv s.optics [l] D lost A F)
    (hregs : s.regs = [l.off]) {env : GrowEnv}
    (hr : ¬ Exhausted env s.optics.arena sizeofDefer) :
    ∃ node o' A' F', Step s ⟨o', []⟩ ∧ Inv o' []
        (Function.update D (opticsEpoch s.optics)
          (⟨node, l.off, l.total⟩ :: D (opticsEpoch s.optics))) lost A' F' ∧
      o'.epoch = s.optics.epoch ∧
      Took s.optics.arena.region A F sizeofDefer node o'.arena.region A' F' := by
  have hmem : l.off ∈ s.regs := by rw [hregs]; exact List.mem_cons_self
  have hi' : Inv s.optics ([] ++ l :: []) D lost A F := hi
  obtain ⟨r, o', hrun, hepoch, hres⟩ := opticsLensFree_spec hi' env
  rcases hres with ⟨hex, -⟩ | ⟨-, -, node, A', F', htook, hi''⟩
  · exact absurd hex hr
  · have hstep := Step.free hmem hrun
    rw [hregs, List.erase_cons_head] at hstep
    exact ⟨node, o', A', F', hstep, hi'', hepoch, htook⟩

theorem notRefused_wear {env : GrowEnv} {a : Arena} (h : ¬ Exhausted env a 74) :
    ¬ RefusedArgs env a wearName .gauge := by
  rintro (hc | hc | hc)
  · cases hc
  · exact absurd hc (by decide)
  · exact h hc

/-- A block that comes from a slab that fits leaves the mapping as it is. -/
theorem Took.fits {r r' : Region} {A' F' : Fin allocClasses → List ℕ} {len off slab n : ℕ}
    (h : Took r A F len off r' A' F') (hslab : slabLen len = slab)
    (hn : slabNodes (roundLen len) = n) (hfit : avail A F (classOf len) = 0 → r.pos + slab ≤ r.vmaLen) :
    r'.vmaLen = r.vmaLen ∧
      (avail A' F' (classOf len) + 1 = avail A F (classOf len) ∧ r'.pos = r.pos ∨
        avail A F (classOf len) = 0 ∧ avail A' F' (classOf len) + 1 = n ∧
          r'.pos = r.pos + slab ∧ off = r.pos) := by
  subst hslab hn
  rcases h.served with ⟨h1, rfl⟩ | ⟨h1, h2, h3, h4, h5⟩
  · exact ⟨rfl, Or.inl ⟨h1, rfl⟩⟩
  · exact ⟨h5.trans (if_pos (hfit h1)), Or.inr ⟨h1, h3, h4, h2⟩⟩

/-- **One round.** -/
theorem worn_step (h : Worn k s D A F q j) (env : GrowEnv) (hk : k < 9216) :
    ∃ s' D' A' F' q' j', Relation.ReflTransGen Step s s' ∧ Worn (k + 1) s' D' A' F' q' j' := by
  have hbase : blockBase = 704 := by decide
  have hdef : regionDefaultLen = 1048576 := rfl
  have hne : classOf sizeofDefer ≠ classOf 74 := by decide
  obtain ⟨hi, hregs, hepoch, hvma, hpos, hrounds, hleft, hlenses, hnodes, hothers⟩ := h
  -- the lens
  have hfit1 : avail A F (classOf 74) = 0 →
      s.optics.arena.region.pos + 20480 ≤ s.optics.arena.region.vmaLen := by omega
  have hex1 : ¬ Exhausted env s.optics.arena 74 := by
    rw [hi.arena.exhausted_iff, slabLens_eq]
    exact fun h => h.2 (Or.inl (hfit1 h.1))
  obtain ⟨off, o1, A1, F1, -, hstep1, hi1, hepoch1, htook1, -⟩ :=
    register_empty hi hregs (notRefused_wear hex1)
  have htook1 : Took s.optics.arena.region A F 74 off o1.arena.region A1 F1 := htook1
  have hdefer1 := htook1.others _ hne
  obtain ⟨hvma1, hserved1⟩ := Took.fits htook1 slabLens_eq (n := 256) (by decide) hfit1
  -- the node
  have hfit2 : avail A1 F1 (classOf sizeofDefer) = 0 →
      o1.arena.region.pos + 8192 ≤ o1.arena.region.vmaLen := by omega
  have hex2 : ¬ Exhausted env o1.arena sizeofDefer := by
    rw [hi1.arena.exhausted_iff, slabDefer_eq]
    exact fun h => h.2 (Or.inl (hfit2 h.1))
  obtain ⟨node, o2, A2, F2, hstep2, hi2, hepoch2, htook2⟩ :=
    free_only (s := ⟨o1, [off]⟩) hi1 rfl hex2
  have hlens2 := htook2.others _ hne.symm
  obtain ⟨hvma2, hserved2⟩ := Took.fits htook2 slabDefer_eq (n := 256) (by decide) hfit2
  dsimp only at hepoch2 hvma2 hserved2
  have hworn : ∀ q' j', o2.arena.region.pos = blockBase + (20480 + 8192) * q' → 256 * q' = k + 1 + j' →
      j' < 256 → avail A2 F2 (classOf 74) = j' → avail A2 F2 (classOf sizeofDefer) = j' →
      Worn (k + 1) ⟨o2, []⟩ _ A2 F2 q' j' := fun q' j' h1 h2 h3 h4 h5 =>
    ⟨hi2, rfl, hepoch2.trans (hepoch1.trans hepoch), hvma2.trans (hvma1.trans hvma), h1, h2, h3, h4,
      h5, fun c hc hc' => (htook2.others c hc').trans ((htook1.others c hc).trans (hothers c hc hc'))⟩
  have hrun : Relation.ReflTransGen Step s ⟨o2, []⟩ := (Relation.ReflTransGen.single hstep1).tail hstep2
  by_cases hj : j = 0
  · exact ⟨_, _, A2, F2, q + 1, 255, hrun, hworn _ _ (by omega) (by omega) (by omega) (by omega)
      (by omega)⟩
  · exact ⟨_, _, A2, F2, q, j - 1, hrun, hworn _ _ (by omega) (by omega) (by omega) (by omega)
      (by omega)⟩

end Wear

/-- **Many rounds**, from a registry just created. -/
theorem worn_run (env : GrowEnv) : ∀ k, k ≤ 9216 →
    ∃ s D A F q j, Relation.ReflTransGen Step fresh s ∧ Worn k s D A F q j
  | 0, _ => by
    obtain ⟨_, _, _, _, o, hc, ho⟩ := start_fresh
    have hi : Inv fresh.optics [] (fun _ => []) [] (fun _ => []) (fun _ => []) := by
      rw [ho]
      exact opticsCreateAt_inv hc
    exact ⟨fresh, _, _, _, 0, 0, .refl, hi, rfl, rfl, rfl, rfl, rfl, by decide, rfl, rfl,
      fun _ _ _ => rfl⟩
  | k + 1, hk => by
    obtain ⟨s, D, A, F, q, j, hr, hw⟩ := worn_run env k (by omega)
    obtain ⟨s', D', A', F', q', j', hr', hw'⟩ := worn_step hw env (by omega)
    exact ⟨s', D', A', F', q', j', hr.trans hr', hw'⟩

theorem reachable_of_fresh {s : State} (h : Relation.ReflTransGen Step fresh s) :
    Reachable Start Step s := ⟨fresh, start_fresh, h⟩

end Optics.RegistryWear
