import Optics.Lib.Xorshift
import Optics.Utils.Random

/-! # The states of the random generator

`utils/rng.c`: seeding, and what a sequence of calls does to the state. Each call of the generator
replaces the state by `rngNext` of it, whatever it makes of the number drawn (`run_state`). The update
is three xor-shifts, hence a bijection that fixes 0, and the output is an invertible multiple of the
state; a generator that has been seeded never gets to the state 0, which is the one that `rng_global`
seeds again. -/

namespace Optics.Utils.RandomStates

open Optics.Base Optics.LensSlots Optics.Doubles Optics.Utils.Random
open Optics.Lib.Xorshift

/-! ### Seeding -/

/-- `rng_seed_with`: the state of a generator. -/
def rngSeedWith (seed : UInt64) : Outcome UInt64 := do
  let x := seed ^^^ 0xedef335f00e170b3
  opticsAssert (x ≠ 0)
  .ok x

/-- `rng_seed`, with what `clock_rdtsc` reads. -/
def rngSeed (clock : UInt64) : Outcome UInt64 := rngSeedWith clock

/-- `rng_global`, with the state of the generator of the thread. -/
def rngGlobal (x clock : UInt64) : Outcome UInt64 := if x = 0 then rngSeed clock else .ok x

theorem rngSeedWith_ne_zero {seed x : UInt64} (h : rngSeedWith seed = .ok x) : x ≠ 0 := by
  obtain ⟨_, hassert, hret⟩ := bind_eq_ok.mp h
  cases hret
  by_contra hzero
  rw [opticsAssert, if_neg (not_not_intro hzero)] at hassert
  cases hassert

/-! ### The update -/

/-- The multiplier of the output. -/
def multiplier : UInt64 := 2685821657736338717

/-- The state that a call leaves. -/
def rngNext (x : UInt64) : UInt64 := (rngGen x).2

theorem rngGen_eq (x : UInt64) : rngGen x = (rngNext x * multiplier, rngNext x) := rfl

/-- The update, as xor-shifts of bit vectors. -/
theorem toBitVec_rngNext (x : UInt64) : (rngNext x).toBitVec =
    right.xorShift 27 (left.xorShift 25 (right.xorShift 12 x.toBitVec)) := rfl

theorem rngNext_zero : rngNext 0 = 0 := by decide

theorem toBitVec_bijective : Function.Bijective UInt64.toBitVec :=
  Function.bijective_iff_has_inverse.mpr ⟨UInt64.ofBitVec, fun _ => rfl, fun _ => rfl⟩

/-- **The update is a bijection.** -/
theorem rngNext_bijective : Function.Bijective rngNext := by
  have hshifts : Function.Bijective fun x : UInt64 =>
      right.xorShift 27 (left.xorShift 25 (right.xorShift 12 x.toBitVec)) :=
    (right.xorShift_bijective (by decide)).comp <| (left.xorShift_bijective (by decide)).comp <|
      (right.xorShift_bijective (by decide)).comp toBitVec_bijective
  refine (Function.Bijective.of_comp_iff' toBitVec_bijective rngNext).mp ?_
  rwa [show UInt64.toBitVec ∘ rngNext = _ from funext toBitVec_rngNext]

/-- **The output is an invertible multiple of the state.** -/
theorem multiplier_bijective : Function.Bijective fun x : UInt64 => x * multiplier := by
  have hinv : multiplier * 0x59071d96d81ecd35 = 1 := by decide
  refine Function.bijective_iff_has_inverse.mpr ⟨(· * 0x59071d96d81ecd35), fun x => ?_, fun x => ?_⟩
  · dsimp only
    rw [UInt64.mul_assoc, hinv, UInt64.mul_one]
  · dsimp only
    rw [UInt64.mul_assoc, UInt64.mul_comm 0x59071d96d81ecd35, hinv, UInt64.mul_one]

theorem rngGen_injective : Function.Injective fun x => (rngGen x).1 := by
  intro x y h
  dsimp only at h
  rw [rngGen_eq, rngGen_eq] at h
  exact rngNext_bijective.injective (multiplier_bijective.injective h)

theorem rngNext_ne_zero {x : UInt64} (hx : x ≠ 0) : rngNext x ≠ 0 := fun h =>
  hx (rngNext_bijective.injective (h.trans rngNext_zero.symm))

theorem rngGen_ne_zero {x : UInt64} (hx : x ≠ 0) : (rngGen x).1 ≠ 0 := fun h =>
  hx (rngGen_injective (h.trans (by decide : 0 = (rngGen 0).1)))

/-! ### Sequences of calls -/

/-- A call. -/
inductive Call where
  | gen
  | range (min max : UInt64)
  | prob (p : Double)

/-- What a call returns. -/
inductive Answer where
  | word (r : UInt64)
  | ranged (r : UInt64)
  | flag (b : Bool)
  deriving DecidableEq

/-- A call of a generator in a state. -/
def exec (fpu : Fpu) (x : UInt64) : Call → Outcome (Answer × UInt64)
  | .gen => .ok (.word (rngGen x).1, (rngGen x).2)
  | .range min max => do
    let (r, x) ← rngGenRange fpu x min max
    .ok (.ranged r, x)
  | .prob p => do
    let (b, x) ← rngGenProb fpu x p
    .ok (.flag b, x)

/-- One call after the other: the answers, and the state at the end. -/
def run (fpu : Fpu) : List Call → UInt64 → Outcome (List Answer × UInt64)
  | [], x => .ok ([], x)
  | call :: calls, x => do
    let (answer, x) ← exec fpu x call
    let (answers, x) ← run fpu calls x
    .ok (answer :: answers, x)

/-- Every call that returns updates the state once; the answer of `rng_gen` is the output. -/
theorem exec_ok {fpu : Fpu} {x x' : UInt64} {call : Call} {answer : Answer}
    (h : exec fpu x call = .ok (answer, x')) :
    x' = rngNext x ∧ ∀ r, answer = .word r → r = (rngGen x).1 := by
  cases call with
  | gen =>
    cases h
    exact ⟨rfl, fun r hr => by cases hr; rfl⟩
  | range min max =>
    obtain ⟨⟨r, x1⟩, hrange, heq⟩ := bind_eq_ok.mp h
    obtain ⟨rest, -, hret⟩ := bind_eq_ok.mp hrange
    cases hret
    cases heq
    exact ⟨rfl, fun r hr => nomatch hr⟩
  | prob p =>
    obtain ⟨⟨b, x1⟩, hprob, heq⟩ := bind_eq_ok.mp h
    obtain ⟨bound, -, hret⟩ := bind_eq_ok.mp hprob
    cases hret
    cases heq
    exact ⟨rfl, fun r hr => nomatch hr⟩

/-- **A sequence of calls** that return iterates the update. -/
theorem run_state {fpu : Fpu} : ∀ {calls : List Call} {x x' : UInt64} {answers : List Answer},
    run fpu calls x = .ok (answers, x') → x' = rngNext^[calls.length] x
  | [], _, _, _, h => by cases h; rfl
  | call :: calls, x, x', answers, h => by
    obtain ⟨⟨answer, x1⟩, hexec, hrest⟩ := bind_eq_ok.mp h
    obtain ⟨⟨answers1, x2⟩, hrun, heq⟩ := bind_eq_ok.mp hrest
    cases heq
    rw [run_state hrun, (exec_ok hexec).1, List.length_cons, Function.iterate_succ_apply]

theorem iterate_ne_zero {x : UInt64} (hx : x ≠ 0) : ∀ n, rngNext^[n] x ≠ 0
  | 0 => hx
  | n + 1 => by
    rw [Function.iterate_succ_apply']
    exact rngNext_ne_zero (iterate_ne_zero hx n)

/-- The words that a sequence of calls draws are not zero. -/
theorem run_words {fpu : Fpu} : ∀ {calls : List Call} {x x' : UInt64} {answers : List Answer},
    x ≠ 0 → run fpu calls x = .ok (answers, x') → ∀ r, Answer.word r ∈ answers → r ≠ 0
  | [], _, _, _, _, h, r, hr => by
    cases h
    cases hr
  | call :: calls, x, x', answers, hx, h, r, hr => by
    obtain ⟨⟨answer, x1⟩, hexec, hrest⟩ := bind_eq_ok.mp h
    obtain ⟨⟨answers1, x2⟩, hrun, heq⟩ := bind_eq_ok.mp hrest
    cases heq
    obtain ⟨hstate, hword⟩ := exec_ok hexec
    have hx1 : x1 ≠ 0 := hstate ▸ rngNext_ne_zero hx
    rcases List.mem_cons.mp hr with hhead | htail
    · rw [hword r hhead.symm]
      exact rngGen_ne_zero hx
    · exact run_words hx1 hrun r htail

/-- **The generator cannot get stuck.** The update of the state is a bijection that fixes 0, and the
output is a multiple of the new state, by a number that is invertible; different states give different
outputs. From a seed that is accepted no sequence of calls leads to the state 0: `rng_global` does not
seed the generator again, and no output is 0. -/
theorem rng_never_stuck :
    (Function.Bijective rngNext ∧ rngNext 0 = 0) ∧
    (∀ x, rngGen x = (rngNext x * multiplier, rngNext x)) ∧
    (Function.Bijective fun x : UInt64 => x * multiplier) ∧
    (∀ x y, x ≠ y → (rngGen x).1 ≠ (rngGen y).1) ∧
    ∀ (fpu : Fpu) (seed x0 : UInt64), rngSeedWith seed = .ok x0 →
      ∀ calls answers x, run fpu calls x0 = .ok (answers, x) →
        x ≠ 0 ∧ (∀ clock, rngGlobal x clock = .ok x) ∧ (rngGen x).1 ≠ 0 ∧
        ∀ r, Answer.word r ∈ answers → r ≠ 0 := by
  refine ⟨⟨rngNext_bijective, rngNext_zero⟩, rngGen_eq, multiplier_bijective,
    fun x y hne h => hne (rngGen_injective h), fun fpu seed x0 hseed calls answers x hrun => ?_⟩
  have hx0 := rngSeedWith_ne_zero hseed
  have hx : x ≠ 0 := by
    rw [run_state hrun]
    exact iterate_ne_zero hx0 calls.length
  exact ⟨hx, fun clock => if_neg hx, rngGen_ne_zero hx, run_words hx0 hrun⟩

/-- A seed, and a call of each kind. -/
theorem rng_never_stuck_seed : ∃ answers x,
    run rational [.gen, .range 0 10, .prob (.fin 0)] (1 ^^^ 0xedef335f00e170b3) = .ok (answers, x) ∧
      x ≠ 0 := by
  have hrun : ∃ answers x,
      run rational [.gen, .range 0 10, .prob (.fin 0)] (1 ^^^ 0xedef335f00e170b3) =
        .ok (answers, x) := by
    simp [run, exec, rngGenRange, Fpu.rem, rngGenProb, rational, Fpu.mul, uint64Of, toRange, trunc]
  obtain ⟨answers, x, hrun⟩ := hrun
  exact ⟨answers, x, hrun, (rng_never_stuck.2.2.2.2 rational 1 _ rfl _ _ _ hrun).1⟩

end Optics.Utils.RandomStates
