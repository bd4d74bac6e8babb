import Optics.Doubles

/-! # The random generator

`utils/rng.c`: a xorshift64* generator. What draws from a generator takes any (`Rng`); `xorshift` is
the one of the source, after its seeding. -/

namespace Optics.Utils.Random

open Optics.Base Optics.LensSlots Optics.Doubles

/-- A generator with states in `σ`. -/
structure Rng (σ : Type) where
  /-- `rng_gen_range`: a number from `min` to below `max`, or around the end of the words -/
  genRange : σ → (min max : UInt64) → min ≠ max → UInt64 × σ
  /-- `rng_gen_range` of a range without numbers, which divides by zero -/
  genEmpty : σ → UInt64 → Outcome (UInt64 × σ)
  /-- `rng_gen_prob`: true with a probability -/
  genProb : σ → Double → Outcome (Bool × σ)

/-- `rng_gen_range`. -/
def Rng.draw {σ : Type} (rng : Rng σ) (s : σ) (min max : UInt64) : Outcome (UInt64 × σ) :=
  if h : min = max then rng.genEmpty s min else .ok (rng.genRange s min max h)

def rngMax : UInt64 := 0xffffffffffffffff

/-- `rng_gen`: a number, and the next state. -/
def rngGen (x : UInt64) : UInt64 × UInt64 :=
  let x := x ^^^ (x >>> 12)
  let x := x ^^^ (x <<< 25)
  let x := x ^^^ (x >>> 27)
  (x * 2685821657736338717, x)

/-- `rng_gen_range`. -/
def rngGenRange (fpu : Fpu) (x min max : UInt64) : Outcome (UInt64 × UInt64) := do
  let (r, x) := rngGen x
  let r ← fpu.rem r (max - min)
  .ok (r + min, x)

/-- `rng_gen_prob`. -/
def rngGenProb (fpu : Fpu) (x : UInt64) (prob : Double) : Outcome (Bool × UInt64) := do
  let (r, x) := rngGen x
  let bound ← fpu.toUInt64 (fpu.mul prob (.fin (doubleOf rngMax)))
  .ok (decide (r ≤ bound), x)

/-- The generator of the source. -/
def xorshift (fpu : Fpu) : Rng UInt64 where
  genRange x min max _ :=
    let (r, x) := rngGen x
    (r % (max - min) + min, x)
  genEmpty x min := rngGenRange fpu x min min
  genProb := rngGenProb fpu

theorem xorshift_draw (fpu : Fpu) (x min max : UInt64) :
    (xorshift fpu).draw x min max = rngGenRange fpu x min max := by
  unfold Rng.draw
  split_ifs with h
  · subst h
    rfl
  · have hne : max - min ≠ 0 := fun hzero => h (by
      rw [← UInt64.sub_add_cancel max min, hzero, UInt64.zero_add])
    unfold rngGenRange Fpu.rem
    dsimp only
    rw [if_neg hne]
    rfl

section Draws
variable {σ : Type} {rng : Rng σ} {s s' : σ}

theorem draw_of_ne {min max : UInt64} (h : min ≠ max) :
    rng.draw s min max = .ok (rng.genRange s min max h) := dif_neg h

/-! ### What is drawn -/

/-- The arguments of a draw. -/
inductive Draw where
  | range (min max : UInt64)
  | prob (p : Double)

/-- The generator that keeps a list of what has been drawn. -/
def Rng.traced {σ : Type} (rng : Rng σ) : Rng (σ × List Draw) where
  genRange s min max h :=
    let r := rng.genRange s.1 min max h
    (r.1, r.2, s.2 ++ [.range min max])
  genEmpty s min := do
    let r ← rng.genEmpty s.1 min
    .ok (r.1, r.2, s.2 ++ [.range min min])
  genProb s p := do
    let r ← rng.genProb s.1 p
    .ok (r.1, r.2, s.2 ++ [.prob p])

theorem traced_genProb {p : Double} {b : Bool} (h : rng.genProb s p = .ok (b, s'))
    (log : List Draw) : rng.traced.genProb (s, log) p = .ok (b, s', log ++ [.prob p]) := by
  change (do let r ← rng.genProb s p; .ok (r.1, r.2, log ++ [Draw.prob p])) = _
  rw [h, ok_bind]

theorem traced_draw (min max : UInt64) (log : List Draw) :
    rng.traced.draw (s, log) min max = (do
      let r ← rng.draw s min max
      .ok (r.1, r.2, log ++ [.range min max])) := by
  unfold Rng.draw
  split_ifs with h
  · subst h
    rfl
  · rfl

end Draws

end Optics.Utils.Random
