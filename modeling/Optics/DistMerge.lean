import Optics.LensDist
import Mathlib.Data.List.Perm.Basic
import Mathlib.Data.List.Perm.Subperm

/-! # Merged reservoirs

What `lens_dist_merge` makes of two reservoirs, along all its paths: the shorter one is empty, or it
fills up the other one, or its values are sampled into a full one, or both are samples and are mixed.

* `lensDistMerge_spec`: the result is as long as it says and holds samples of the two, none twice;
* `lensDistMerge_draws`: no range that is drawn from is empty;
* `lensDistMerge_returns`: it returns if its draws do. -/

namespace Optics.DistMerge

open Optics.Base Optics.Lenses Optics.LensSlots Optics.Doubles Optics.Utils.Random Optics.LensDist

section Specs
variable {σ : Type} {fpu : Fpu} {rng : Rng σ}

/-! ### The loops -/

theorem set_subperm {l : List Double} (i : ℕ) (v : Double) : (l.set i v).Subperm (v :: l) := by
  by_cases hi : i < l.length
  · refine (List.set_perm_cons_eraseIdx hi v).subperm.trans ?_
    exact (List.subperm_cons v).mpr (List.eraseIdx_sublist l i).subperm
  · rw [List.set_eq_of_length_le (not_lt.mp hi)]
    exact List.Subperm.cons_self

theorem sampleEach_spec : ∀ {l dst r : List Double} {n : UInt64} {s s' : σ},
    sampleEach rng l dst n s = .ok (r, s') → r.length = dst.length ∧ r.Subperm (dst ++ l)
  | [], dst, r, _, _, _, h => by
    cases h
    exact ⟨rfl, by rw [List.append_nil]⟩
  | v :: l, dst, r, n, s, s', h => by
    rw [sampleEach] at h
    obtain ⟨⟨index, s1⟩, -, h⟩ := bind_eq_ok.mp h
    obtain ⟨hlen, hsub⟩ := sampleEach_spec h
    refine ⟨hlen.trans (List.length_set ..), hsub.trans ?_⟩
    have hset := (List.subperm_append_right l).mpr (set_subperm (l := dst) index.toNat v)
    exact hset.trans List.perm_middle.symm.subperm

theorem sampleRate_spec {rate : Double} : ∀ {l : List Double} (kept : List Double)
    {rest r : List Double} {s s' : σ},
    sampleRate rng rate l kept.length (kept ++ rest) s = .ok (r, s') → l.length = rest.length →
      ∃ rest', r = kept ++ rest' ∧ rest'.length = rest.length ∧ rest'.Subperm (rest ++ l)
  | [], kept, rest, _, _, _, h, hlen => by
    cases h
    exact ⟨rest, rfl, rfl, by rw [List.append_nil]⟩
  | v :: l, kept, [], _, _, _, _, hlen => absurd hlen (Nat.succ_ne_zero _)
  | v :: l, kept, w :: rest, r, s, s', h, hlen => by
    rw [sampleRate] at h
    obtain ⟨⟨take, s1⟩, -, h⟩ := bind_eq_ok.mp h
    obtain ⟨x, hx, hset⟩ : ∃ x, (x = v ∨ x = w) ∧
        (if take then (kept ++ w :: rest).set kept.length v else kept ++ w :: rest) =
          kept ++ [x] ++ rest := by
      split_ifs
      · exact ⟨v, .inl rfl, by simp⟩
      · exact ⟨w, .inr rfl, by simp⟩
    have hkept : (kept ++ [x]).length = kept.length + 1 := by simp
    dsimp only at h
    rw [hset, ← hkept] at h
    obtain ⟨rest', rfl, hlen', hsub⟩ := sampleRate_spec (kept ++ [x]) h (Nat.succ.inj hlen)
    refine ⟨x :: rest', by simp, congrArg Nat.succ hlen', ?_⟩
    have hcons : (x :: rest').Subperm (x :: (rest ++ l)) := (List.subperm_cons x).mpr hsub
    refine hcons.trans ?_
    rcases hx with rfl | rfl
    · exact List.Subperm.cons_right w List.perm_middle.symm.subperm
    · exact (List.subperm_cons x).mpr ((List.subperm_append_left rest).mpr List.Subperm.cons_self)

/-! ### The merge -/

theorem mergeFull_spec {dst l r : List Double} {n m : UInt64} {k : ℕ} {s s' : σ}
    (hdst : dst.length = opticsDistSamples) (hl : lensDistReservoirLen m ≤ l.length)
    (h : mergeFull fpu rng dst n l m s = .ok (r, k, s')) :
    k = opticsDistSamples ∧ r.length = opticsDistSamples ∧ r.Subperm (dst ++ l) := by
  unfold mergeFull at h
  split_ifs at h with hm
  · obtain ⟨⟨r', s1⟩, heach, h⟩ := bind_eq_ok.mp h
    cases h
    obtain ⟨hlen, hsub⟩ := sampleEach_spec heach
    refine ⟨rfl, hlen.trans hdst, hsub.trans ?_⟩
    exact (List.subperm_append_left dst).mpr (List.take_sublist _ l).subperm
  · obtain ⟨⟨r', s1⟩, hrate, h⟩ := bind_eq_ok.mp h
    cases h
    have hlen : (l.take opticsDistSamples).length = dst.length := by
      unfold lensDistReservoirLen at hl
      rw [List.length_take, hdst]
      omega
    obtain ⟨rest', hr, hlen', hsub⟩ := sampleRate_spec [] hrate hlen
    rw [List.nil_append] at hr
    subst hr
    refine ⟨rfl, hlen'.trans hdst, hsub.trans ?_⟩
    exact (List.subperm_append_left dst).mpr (List.take_sublist _ l).subperm

theorem fill_toNat {n m : UInt64} {c : ℕ} (hc : min (opticsDistSamples - n.toNat) m.toNat = c) :
    (UInt64.ofNat c).toNat = c ∧ (m - UInt64.ofNat c).toNat = m.toNat - c ∧
      (n.toNat < opticsDistSamples → (n + UInt64.ofNat c).toNat = n.toNat + c) := by
  have hN : opticsDistSamples = 200 := rfl
  have hcopy : (UInt64.ofNat c).toNat = c := toNat_ofNat_small (by omega)
  refine ⟨hcopy, ?_, fun hn => ?_⟩
  · rw [UInt64.toNat_sub_of_le _ _ (UInt64.le_iff_toNat_le.mpr (by omega)), hcopy]
  · rw [UInt64.toNat_add, hcopy]
    exact Nat.mod_eq_of_lt (by omega)

theorem mergeInto_spec {dst l r : List Double} {n m : UInt64} {k : ℕ} {s s' : σ}
    (hdst : dst.length = lensDistReservoirLen n) (hl : l.length = lensDistReservoirLen m)
    (hle : m.toNat ≤ n.toNat) (h : mergeInto fpu rng dst n l m s = .ok (r, k, s')) :
    k = min (n.toNat + m.toNat) opticsDistSamples ∧ r.length = k ∧ r.Subperm (dst ++ l) := by
  have hN : opticsDistSamples = 200 := rfl
  unfold lensDistReservoirLen at hdst hl
  unfold mergeInto at h
  split_ifs at h with h0 hlt
  · cases h
    subst h0
    rw [UInt64.toNat_zero, Nat.zero_min] at hl
    refine ⟨by rw [lensDistReservoirLen, UInt64.toNat_zero, Nat.add_zero], hdst, ?_⟩
    exact (List.sublist_append_left dst l).subperm
  · generalize hc : min (opticsDistSamples - n.toNat) m.toNat = c at h
    obtain ⟨-, hsub, hadd⟩ := fill_toNat hc
    have hfill : (dst ++ l.take c).length = n.toNat + c := by
      rw [List.length_append, List.length_take]
      omega
    dsimp only at h
    split_ifs at h with hrest
    · cases h
      have hmc : m.toNat - c = 0 := by rw [← hsub, hrest, UInt64.toNat_zero]
      rw [hadd hlt]
      refine ⟨by omega, hfill, ?_⟩
      exact (List.subperm_append_left dst).mpr (List.take_sublist c l).subperm
    · have hmc : m.toNat - c ≠ 0 := fun hz => hrest (UInt64.toNat_inj.mp (hsub.trans hz))
      obtain ⟨hk, hr, hperm⟩ := mergeFull_spec (by omega) (by
        rw [lensDistReservoirLen, hsub, List.length_drop]
        omega) h
      refine ⟨by omega, by omega, hperm.trans ?_⟩
      rw [List.append_assoc, List.take_append_drop]
  · obtain ⟨hk, hr, hperm⟩ := mergeFull_spec (by omega) hl.ge h
    exact ⟨by omega, by omega, hperm⟩

/-- **Two reservoirs are merged.** -/
theorem lensDistMerge_spec {l l' r : List Double} {n m : UInt64} {k : ℕ} {s s' : σ}
    (hl : l.length = lensDistReservoirLen n) (hl' : l'.length = lensDistReservoirLen m)
    (h : lensDistMerge fpu rng l n l' m s = .ok (r, k, s')) :
    k = min (n.toNat + m.toNat) opticsDistSamples ∧ r.length = k ∧ r.Subperm (l ++ l') := by
  unfold lensDistMerge at h
  split_ifs at h with hle
  · rw [← hl, List.take_length] at h
    exact mergeInto_spec hl hl' (UInt64.le_iff_toNat_le.mp hle) h
  · rw [← hl', List.take_length] at h
    have hlt := mt UInt64.le_iff_toNat_le.mpr hle
    obtain ⟨hk, hr, hsub⟩ := mergeInto_spec hl' hl (by omega) h
    exact ⟨by rw [hk, Nat.add_comm], hr, hsub.trans List.perm_append_comm.subperm⟩

theorem lensDistMerge_perm {l l' r : List Double} {n m : UInt64} {k : ℕ} {s s' : σ}
    (hl : l.length = lensDistReservoirLen n) (hl' : l'.length = lensDistReservoirLen m)
    (h : lensDistMerge fpu rng l n l' m s = .ok (r, k, s'))
    (hsum : n.toNat + m.toNat ≤ opticsDistSamples) : r.Perm (l ++ l') := by
  obtain ⟨hk, hr, hsub⟩ := lensDistMerge_spec hl hl' h
  unfold lensDistReservoirLen at hl hl'
  refine hsub.perm_of_length_le ?_
  rw [List.length_append]
  omega

end Specs

/-! ### Ranges -/

/-- The range that is drawn from has a number. -/
def HasNumber : Draw → Prop
  | .range lo hi => lo < hi
  | .prob _ => True

section Draws
variable {σ : Type} {fpu : Fpu} {rng : Rng σ}

theorem sampleEach_draws : ∀ {l dst r : List Double} {n : UInt64} {s : σ} {log : List Draw}
    {t : σ × List Draw}, 0 < n.toNat → n.toNat + l.length ≤ 2 ^ 64 →
      sampleEach rng.traced l dst n (s, log) = .ok (r, t) →
        ∃ draws, t.2 = log ++ draws ∧ ∀ draw ∈ draws, HasNumber draw
  | [], _, _, _, _, _, _, _, _, h => by
    cases h
    exact ⟨[], (List.append_nil _).symm, List.forall_mem_nil _⟩
  | v :: l, dst, r, n, s, log, t, hpos, hle, h => by
    rw [sampleEach, traced_draw] at h
    obtain ⟨⟨index, s1, log1⟩, hdraw, h⟩ := bind_eq_ok.mp h
    obtain ⟨⟨index', s1'⟩, -, hlog⟩ := bind_eq_ok.mp hdraw
    cases hlog
    have hfirst : HasNumber (.range 0 n) := UInt64.lt_iff_toNat_lt.mpr hpos
    rw [List.length_cons] at hle
    cases l with
    | nil =>
      cases h
      exact ⟨[.range 0 n], rfl, List.forall_mem_singleton.mpr hfirst⟩
    | cons w l =>
      have hadd : (n + 1).toNat = n.toNat + 1 := toNat_succ (by rw [List.length_cons] at hle; omega)
      obtain ⟨draws, ht, hdraws⟩ := sampleEach_draws (by omega) (by omega) h
      exact ⟨.range 0 n :: draws, ht.trans (List.append_assoc log _ draws),
        List.forall_mem_cons.mpr ⟨hfirst, hdraws⟩⟩

theorem sampleRate_draws {rate : Double} : ∀ {l : List Double} {i : ℕ} {dst r : List Double}
    {s : σ} {log : List Draw} {t : σ × List Draw},
    sampleRate rng.traced rate l i dst (s, log) = .ok (r, t) →
      ∃ draws, t.2 = log ++ draws ∧ ∀ draw ∈ draws, HasNumber draw
  | [], _, _, _, _, _, _, h => by
    cases h
    exact ⟨[], (List.append_nil _).symm, List.forall_mem_nil _⟩
  | v :: l, i, dst, r, s, log, t, h => by
    rw [sampleRate] at h
    obtain ⟨⟨take, s1, log1⟩, hdraw, h⟩ := bind_eq_ok.mp h
    obtain ⟨⟨take', s1'⟩, -, hlog⟩ := bind_eq_ok.mp hdraw
    cases hlog
    obtain ⟨draws, ht, hdraws⟩ := sampleRate_draws h
    refine ⟨.prob rate :: draws, ht.trans (List.append_assoc log _ draws), fun draw hmem => ?_⟩
    rcases List.mem_cons.mp hmem with rfl | hmem
    · exact trivial
    · exact hdraws draw hmem

theorem mergeFull_draws {dst l r : List Double} {n m : UInt64} {k : ℕ} {s : σ} {log : List Draw}
    {t : σ × List Draw} (hn : 0 < n.toNat) (hsum : n.toNat + m.toNat ≤ 2 ^ 64)
    (h : mergeFull fpu rng.traced dst n l m (s, log) = .ok (r, k, t)) :
    ∃ draws, t.2 = log ++ draws ∧ ∀ draw ∈ draws, HasNumber draw := by
  unfold mergeFull at h
  split_ifs at h
  · obtain ⟨⟨r', t'⟩, heach, h⟩ := bind_eq_ok.mp h
    cases h
    exact sampleEach_draws hn (by rw [List.length_take]; omega) heach
  · obtain ⟨⟨r', t'⟩, hrate, h⟩ := bind_eq_ok.mp h
    cases h
    exact sampleRate_draws hrate

theorem mergeInto_draws {dst l r : List Double} {n m : UInt64} {k : ℕ} {s : σ} {log : List Draw}
    {t : σ × List Draw} (hsum : n.toNat + m.toNat ≤ 2 ^ 64) (hle : m.toNat ≤ n.toNat)
    (h : mergeInto fpu rng.traced dst n l m (s, log) = .ok (r, k, t)) :
    ∃ draws, t.2 = log ++ draws ∧ ∀ draw ∈ draws, HasNumber draw := by
  unfold mergeInto at h
  split_ifs at h with h0 hlt
  · cases h
    exact ⟨[], (List.append_nil _).symm, List.forall_mem_nil _⟩
  · have hpos : m.toNat ≠ 0 := fun hz => h0 (UInt64.toNat_inj.mp hz)
    obtain ⟨-, hsub, hadd⟩ := fill_toNat (n := n) (m := m) rfl
    dsimp only at h
    split_ifs at h
    · cases h
      exact ⟨[], (List.append_nil _).symm, List.forall_mem_nil _⟩
    · exact mergeFull_draws (by rw [hadd hlt]; omega) (by rw [hadd hlt, hsub]; omega) h
  · have hN : opticsDistSamples = 200 := rfl
    exact mergeFull_draws (by omega) hsum h

/-- **Every range has a number** while the two lengths do not overflow. -/
theorem lensDistMerge_draws {l l' r : List Double} {n m : UInt64} {k : ℕ} {s : σ} {log : List Draw}
    {t : σ × List Draw} (hsum : n.toNat + m.toNat ≤ 2 ^ 64)
    (h : lensDistMerge fpu rng.traced l n l' m (s, log) = .ok (r, k, t)) :
    ∃ draws, t.2 = log ++ draws ∧ ∀ draw ∈ draws, HasNumber draw := by
  unfold lensDistMerge at h
  split_ifs at h with hle
  · exact mergeInto_draws hsum (UInt64.le_iff_toNat_le.mp hle) h
  · have hlt := mt UInt64.le_iff_toNat_le.mpr hle
    exact mergeInto_draws (by omega) (by omega) h

end Draws

/-! ### Returning -/

section Returns
open Optics.Lib.Sorting
variable {σ : Type} {fpu : Fpu} {rng : Rng σ}

theorem sampleEach_returns : ∀ (l dst : List Double) {n : UInt64} (s : σ),
    (∀ i < l.length, ∀ s, ∃ r, rng.draw s 0 (n + .ofNat i) = .ok r) →
      ∃ r s', sampleEach rng l dst n s = .ok (r, s')
  | [], dst, _, s, _ => ⟨dst, s, rfl⟩
  | v :: l, dst, n, s, hdraw => by
    obtain ⟨⟨index, s1⟩, hfirst⟩ := hdraw 0 (Nat.succ_pos _) s
    rw [show n + UInt64.ofNat 0 = n from UInt64.add_zero n] at hfirst
    obtain ⟨r, s', hrest⟩ := sampleEach_returns l (dst.set index.toNat v) (n := n + 1) s1
      fun i hi s => by
        rw [succ_add_ofNat]
        exact hdraw (i + 1) (Nat.succ_lt_succ hi) s
    refine ⟨r, s', ?_⟩
    rw [sampleEach, hfirst, ok_bind]
    exact hrest

theorem sampleRate_returns {rate : Double} (hprob : ∀ s, ∃ r, rng.genProb s rate = .ok r) :
    ∀ (l : List Double) (i : ℕ) (dst : List Double) (s : σ),
      ∃ dst' s', sampleRate rng rate l i dst s = .ok (dst', s') ∧ dst'.length = dst.length
  | [], _, dst, s => ⟨dst, s, rfl, rfl⟩
  | v :: l, i, dst, s => by
    obtain ⟨⟨take, s1⟩, hdraw⟩ := hprob s
    obtain ⟨dst', s', hrest, hlen⟩ :=
      sampleRate_returns hprob l (i + 1) (if take then dst.set i v else dst) s1
    refine ⟨dst', s', ?_, hlen.trans ?_⟩
    · rw [sampleRate, hdraw, ok_bind]
      exact hrest
    · split_ifs
      · exact List.length_set ..
      · rfl

/-- The draws of a merge with a full reservoir return. -/
structure DrawsReturn (fpu : Fpu) (rng : Rng σ) (n m : UInt64) : Prop where
  each : opticsDistSamples ≤ n.toNat → m.toNat ≤ opticsDistSamples →
    ∀ i < m.toNat, ∀ s, ∃ r, rng.draw s 0 (n + .ofNat i) = .ok r
  mix : opticsDistSamples < m.toNat → ∀ s, ∃ r, rng.genProb s
    (fpu.div (.fin (doubleOf m)) (.fin (doubleOf (m + n)))) = .ok r

/-- No range is empty as long as the counts do not start over. -/
theorem draws_of_room {n : UInt64} {m : ℕ} (hn : opticsDistSamples ≤ n.toNat)
    (hsum : n.toNat + m ≤ 2 ^ 64) :
    ∀ i < m, ∀ s, ∃ r, rng.draw s 0 (n + .ofNat i) = .ok r := by
  intro i hi s
  have hN : opticsDistSamples = 200 := rfl
  have hne : 0 ≠ n + UInt64.ofNat i := by
    intro h
    have hword := congrArg UInt64.toNat h
    rw [UInt64.toNat_add, UInt64.toNat_ofNat', Nat.mod_eq_of_lt (by omega : i < 2 ^ 64),
      Nat.mod_eq_of_lt (by omega), UInt64.toNat_zero] at hword
    omega
  exact ⟨_, draw_of_ne hne⟩

theorem mergeFull_returns {n m : UInt64} (hdraws : DrawsReturn fpu rng n m)
    (hn : opticsDistSamples ≤ n.toNat) (dst l : List Double) (s : σ) :
    ∃ r s', mergeFull fpu rng dst n l m s = .ok (r, opticsDistSamples, s') ∧
      r.length = dst.length := by
  unfold mergeFull
  split_ifs with hm
  · obtain ⟨r, s', hrun⟩ := sampleEach_returns (l.take m.toNat) dst s fun i hi =>
      hdraws.each hn hm i (hi.trans_le (List.length_take_le ..))
    exact ⟨r, s', by simp only [hrun, ok_bind], (sampleEach_spec hrun).1⟩
  · obtain ⟨r, s', hrun, hlen⟩ := sampleRate_returns (hdraws.mix (by omega))
      (l.take opticsDistSamples) 0 dst s
    exact ⟨r, s', by simp only [hrun, ok_bind], hlen⟩

theorem mergeInto_returns {dst l : List Double} {n m : UInt64} (hdraws : DrawsReturn fpu rng n m)
    (hle : m.toNat ≤ n.toNat) (hdst : dst.length = lensDistReservoirLen n)
    (hl : lensDistReservoirLen m ≤ l.length) (s : σ) :
    ∃ r k s', mergeInto fpu rng dst n l m s = .ok (r, k, s') ∧
      k = min (n.toNat + m.toNat) opticsDistSamples ∧ k ≤ r.length := by
  unfold lensDistReservoirLen at hdst hl
  have hN : opticsDistSamples = 200 := rfl
  unfold mergeInto
  split_ifs with h0 hlt
  · subst h0
    refine ⟨dst, _, s, rfl, ?_, ?_⟩
    · rw [lensDistReservoirLen, UInt64.toNat_zero, Nat.add_zero]
    · rw [lensDistReservoirLen, hdst]
  · generalize hc : min (opticsDistSamples - n.toNat) m.toNat = c
    obtain ⟨-, hsub, hadd⟩ := fill_toNat hc
    have hlen : (dst ++ l.take c).length = n.toNat + c := by
      rw [List.length_append, List.length_take, hdst]
      omega
    dsimp only
    split_ifs with hrest
    · have hmc : m.toNat - c = 0 := by rw [← hsub, hrest, UInt64.toNat_zero]
      rw [hadd hlt]
      exact ⟨_, _, s, rfl, by omega, by omega⟩
    · have hmc : m.toNat - c ≠ 0 := fun hz => hrest (UInt64.toNat_inj.mp (hsub.trans hz))
      have hfilled : DrawsReturn fpu rng (n + UInt64.ofNat c) (m - UInt64.ofNat c) :=
        ⟨fun hfull _ => draws_of_room hfull (by rw [hadd hlt, hsub]; omega),
          fun hbig => absurd (hsub ▸ hbig) (by omega)⟩
      obtain ⟨r, s', hrun, hr⟩ := mergeFull_returns hfilled (by rw [hadd hlt]; omega)
        (dst ++ l.take c) (l.drop c) s
      exact ⟨r, _, s', hrun, by omega, by omega⟩
  · obtain ⟨r, s', hrun, hr⟩ := mergeFull_returns hdraws (not_lt.mp hlt) dst l s
    exact ⟨r, _, s', hrun, by omega, by omega⟩

theorem lensDistMerge_returns {l l' : List Double} {n m : UInt64}
    (hdraws : m.toNat ≤ n.toNat → DrawsReturn fpu rng n m)
    (hdraws' : n.toNat ≤ m.toNat → DrawsReturn fpu rng m n)
    (hl : lensDistReservoirLen n ≤ l.length) (hl' : lensDistReservoirLen m ≤ l'.length) (s : σ) :
    ∃ r k s', lensDistMerge fpu rng l n l' m s = .ok (r, k, s') ∧
      k = min (n.toNat + m.toNat) opticsDistSamples ∧ k ≤ r.length := by
  unfold lensDistMerge
  split_ifs with hle
  · have hle := UInt64.le_iff_toNat_le.mp hle
    exact mergeInto_returns (hdraws hle) hle (by rw [List.length_take, min_eq_left hl]) hl' s
  · have hlt := mt UInt64.le_iff_toNat_le.mpr hle
    obtain ⟨r, k, s', hrun, hk, hr⟩ := mergeInto_returns (hdraws' (by omega)) (by omega)
      (by rw [List.length_take, min_eq_left hl']) hl s
    exact ⟨r, k, s', hrun, by omega, hr⟩

theorem entry_returns {l : List Double} {i : ℕ} (h : i < l.length) : ∃ v, entry l i = .ok v := by
  unfold entry
  rw [List.getElem?_eq_getElem h]
  exact ⟨_, rfl⟩

/-- **Samples are merged** into a record, if conversions to `int` return, too. -/
theorem mergeSamples_returns (hint : ∀ d, ∃ n, fpu.toInt d = .ok n) {value : OpticsDist}
    {n : UInt64} {samples : List Double}
    (hdraws : value.n.toNat ≤ n.toNat → DrawsReturn fpu rng n value.n)
    (hdraws' : n.toNat ≤ value.n.toNat → DrawsReturn fpu rng value.n n)
    (hv : lensDistReservoirLen value.n ≤ value.samples.length)
    (hs : lensDistReservoirLen n ≤ samples.length) (s : σ) :
    ∃ value' s', value.mergeSamples fpu rng n samples s = .ok (value', s') ∧
      lensDistReservoirLen value'.n ≤ value'.samples.length := by
  unfold OpticsDist.mergeSamples
  split_ifs with h0
  · exact ⟨value, s, rfl, hv⟩
  have hn0 : n.toNat ≠ 0 := fun h => h0 (UInt64.toNat_inj.mp h)
  obtain ⟨r, k, s', hrun, hk, hr⟩ := lensDistMerge_returns hdraws hdraws' hs hv s
  obtain ⟨sorted, hsort⟩ : ∃ o, mergeSort (lensDistValueCmp fpu) (r.take k) = .ok o :=
    mergeSort_ok fun x _ y _ => hint _
  have hlen : sorted.length = k := by
    rw [(mergeSort_perm hsort).length_eq, List.length_take, min_eq_left hr]
  have hk0 : 0 < k := by
    have hN : opticsDistSamples = 200 := rfl
    omega
  have hp : ∀ {p}, p < 100 → ∃ v, entry sorted (lensDistP p k) = .ok v := fun {p} hp100 =>
    entry_returns (by
      rw [hlen, lensDistP]
      refine Nat.div_lt_of_lt_mul ?_
      rw [mul_comm 100]
      exact Nat.mul_lt_mul_of_pos_left hp100 hk0)
  obtain ⟨p50, h50⟩ := hp (show 50 < 100 by decide)
  obtain ⟨p90, h90⟩ := hp (show 90 < 100 by decide)
  obtain ⟨p99, h99⟩ := hp (show 99 < 100 by decide)
  have hfinal : lensDistReservoirLen (value.n + n) ≤ r.length := ?_
  · exact ⟨⟨value.n + n, p50, p90, p99, value.max, r⟩, s',
      by simp only [hrun, hsort, h50, h90, h99, ok_bind], hfinal⟩
  refine le_trans ?_ hr
  rw [hk, lensDistReservoirLen, UInt64.toNat_add]
  have := Nat.mod_le (value.n.toNat + n.toNat) (2 ^ 64)
  omega

end Returns

end Optics.DistMerge
