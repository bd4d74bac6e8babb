import Mathlib.Algebra.Group.Nat.Defs
import Mathlib.Data.List.Basic
import Mathlib.Tactic.SplitIfs
import Mathlib.Tactic.Use

/-! # Outcomes of a call, machine words, C strings

A function of the library that can abort the process, dereference a null pointer or loop forever
returns an `Outcome`; an error the caller sees is an ordinary value of the function's own return
type. Machine words are natural numbers with the wrap-around written out (`w64`). A C string is the
list of its bytes in front of the terminating zero byte. -/

namespace Optics.Base

/-- How a call can fail to return. -/
inductive Fault where
  /-- an `optics_assert` fired -/
  | abort
  /-- a null pointer was dereferenced -/
  | segv
  /-- a loop or a recursion never ends -/
  | diverge
  /-- the language leaves open what happens -/
  | undefined
  deriving DecidableEq, Repr

/-- The result of a call that may not return. -/
abbrev Outcome (α : Type) := Except Fault α

/-- `optics_assert`. -/
def opticsAssert (p : Prop) [Decidable p] : Outcome Unit :=
  if p then .ok () else .error .abort

theorem bind_eq_ok {α β : Type} {x : Outcome α} {f : α → Outcome β} {r : β} :
    x >>= f = .ok r ↔ ∃ a, x = .ok a ∧ f a = .ok r := by
  cases x with
  | ok a => exact ⟨fun h => ⟨a, rfl, h⟩, fun ⟨_, h, h'⟩ => by cases h; exact h'⟩
  | error e => exact ⟨fun h => (nomatch h), fun ⟨_, h, _⟩ => (nomatch h)⟩

@[simp] theorem ok_bind {α β : Type} (a : α) (f : α → Outcome β) :
    (Except.ok a : Outcome α) >>= f = f a := rfl

@[simp] theorem error_bind {α β : Type} (e : Fault) (f : α → Outcome β) :
    (Except.error e : Outcome α) >>= f = .error e := rfl

theorem exists_of_isOk {α : Type} {x : Outcome α} (h : x.isOk = true) : ∃ a, x = .ok a := by
  cases x with
  | ok a => exact ⟨a, rfl⟩
  | error e => exact absurd h Bool.false_ne_true

@[simp] theorem opticsAssert_pos {p : Prop} [Decidable p] (h : p) : opticsAssert p = .ok () :=
  if_pos h

/-! ### Words -/

/-- A 64-bit unsigned result: the number modulo `2^64`. -/
def w64 (n : ℕ) : ℕ := n % 2 ^ 64

theorem w64_eq {n : ℕ} (h : n < 2 ^ 64) : w64 n = n := Nat.mod_eq_of_lt h

/-- The two epochs are the numbers of `Fin 2`. -/
instance neZeroTwo : @NeZero ℕ Zero.ofOfNat0 2 := ⟨Nat.succ_ne_zero 1⟩

/-! ### Strings -/

/-- A C string: its bytes, none of them zero. -/
abbrev CStr := { l : List UInt8 // (0 : UInt8) ∉ l }

namespace CStr

/-- The string without a byte. -/
def empty : CStr := ⟨[], List.not_mem_nil⟩

/-- The string as `strnlen` counts it. -/
def strnlen (s : CStr) (n : ℕ) : ℕ := min s.val.length n

/-- The first `n` bytes of a string, as `strndup` copies them. -/
def take (s : CStr) (n : ℕ) : CStr :=
  ⟨s.val.take n, fun h => s.property (List.mem_of_mem_take h)⟩

@[simp] theorem take_val (s : CStr) (n : ℕ) : (s.take n).val = s.val.take n := rfl

theorem take_of_length_le {s : CStr} {n : ℕ} (h : s.val.length ≤ n) : s.take n = s :=
  Subtype.ext (List.take_of_length_le h)

theorem take_take (s : CStr) (n m : ℕ) : (s.take n).take m = s.take (min m n) :=
  Subtype.ext (by simp [List.take_take])

end CStr

/-- The name `a`. -/
def nameA : CStr := ⟨[97], by decide⟩

/-- The name `b`. -/
def nameB : CStr := ⟨[98], by decide⟩

end Optics.Base
