import Mathlib.Data.List.Lex
import Mathlib.Order.Basic
import Mathlib.Tactic.SplitIfs
import Mathlib.Tactic.Use
import Mathlib.Tactic.ByContra

/-! # Patterns with wildcards and stars

A pattern is a list of tokens; a constant matches itself, a wildcard any key, and a star whatever is
left. Patterns are compared by the kinds of their tokens, constants first and stars last. A `Dict`
gives some patterns a value; to look up a request means to find the least of those that match it
(`Finds`). `finds_nil` and `finds_cons` are the rules for a search that goes through a dictionary
token by token. -/

namespace Optics.Lib.Patterns

/-- A token of a pattern. -/
inductive Token (K : Type*) where
  | const (k : K)
  | wildcard
  | star
  deriving DecidableEq

variable {K V : Type*}

/-- Constants come before wildcards, wildcards before stars. -/
def Token.rank : Token K → ℕ
  | .const _ => 0
  | .wildcard => 1
  | .star => 2

/-- What patterns are compared by; a list comes before a longer one. -/
def kinds (p : List (Token K)) : List ℕ := p.map Token.rank

/-- A pattern matches a request. -/
def Matches : List (Token K) → List K → Prop
  | [], [] => True
  | .star :: _, _ => True
  | .wildcard :: p, _ :: req => Matches p req
  | .const k :: p, h :: req => k = h ∧ Matches p req
  | _, _ => False

/-- Nothing follows a star. -/
def Normal : List (Token K) → Prop
  | [] => True
  | .star :: p => p = []
  | _ :: p => Normal p

theorem matches_nil {p : List (Token K)} (hn : Normal p) :
    Matches p [] ↔ p = [] ∨ p = [.star] := by
  match p with
  | [] => simp [Matches]
  | .star :: p =>
    have hp : p = [] := hn
    simp [Matches, hp]
  | .wildcard :: p => simp [Matches]
  | .const k :: p => simp [Matches]

theorem matches_cons {p : List (Token K)} (hn : Normal p) {h : K} {req : List K} :
    Matches p (h :: req) ↔ (∃ q, p = .const h :: q ∧ Matches q req) ∨
      (∃ q, p = .wildcard :: q ∧ Matches q req) ∨ p = [.star] := by
  match p with
  | [] => simp [Matches]
  | .star :: p =>
    have hp : p = [] := hn
    simp [Matches, hp]
  | .wildcard :: p => simp [Matches]
  | .const k :: p =>
    simp only [Matches, List.cons.injEq, Token.const.injEq, reduceCtorEq, false_and, exists_false,
      or_false]
    constructor
    · rintro ⟨rfl, hp⟩
      exact ⟨p, ⟨rfl, rfl⟩, hp⟩
    · rintro ⟨q, ⟨rfl, rfl⟩, hp⟩
      exact ⟨rfl, hp⟩

/-- **Patterns that match one request** are told apart by the kinds of their tokens. -/
theorem eq_of_kinds : ∀ {req : List K} {p q : List (Token K)}, Normal p → Normal q →
    Matches p req → Matches q req → kinds p = kinds q → p = q
  | [], p, q, hp, hq, hpm, hqm, hk => by
    rcases (matches_nil hp).mp hpm with rfl | rfl <;> rcases (matches_nil hq).mp hqm with rfl | rfl
    · rfl
    · cases hk
    · cases hk
    · rfl
  | h :: req, p, q, hp, hq, hpm, hqm, hk => by
    rcases (matches_cons hp).mp hpm with ⟨p', rfl, hpm'⟩ | ⟨p', rfl, hpm'⟩ | rfl <;>
      rcases (matches_cons hq).mp hqm with ⟨q', rfl, hqm'⟩ | ⟨q', rfl, hqm'⟩ | rfl
    · rw [eq_of_kinds (p := p') (q := q') hp hq hpm' hqm' (List.cons.inj hk).2]
    · cases (List.cons.inj hk).1
    · cases (List.cons.inj hk).1
    · cases (List.cons.inj hk).1
    · rw [eq_of_kinds (p := p') (q := q') hp hq hpm' hqm' (List.cons.inj hk).2]
    · cases (List.cons.inj hk).1
    · cases (List.cons.inj hk).1
    · cases (List.cons.inj hk).1
    · rfl

/-! ### Dictionaries -/

/-- Some patterns with values. -/
abbrev Dict (K V : Type*) := List (Token K) → Option V

/-- What is to be found for a request: the value of the least pattern that matches it. -/
def Finds (D : Dict K V) (req : List K) : Option V → Prop
  | none => ∀ p v, D p = some v → ¬ Matches p req
  | some v => ∃ p, D p = some v ∧ Matches p req ∧
      ∀ q w, D q = some w → Matches q req → kinds p ≤ kinds q

/-- All patterns of a dictionary are normal. -/
def NormalDict (D : Dict K V) : Prop := ∀ p v, D p = some v → Normal p

/-- The patterns that begin with a token, without it. -/
def Dict.after (D : Dict K V) (t : Token K) : Dict K V := fun p => D (t :: p)

/-- **At the end of a request** the empty pattern comes before the star. -/
theorem finds_nil {D : Dict K V} (hD : NormalDict D) : Finds D [] (D [] <|> D [.star]) := by
  rcases h0 : D [] with _ | v
  · rcases h1 : D [.star] with _ | v
    · intro p w hp hm
      rcases (matches_nil (hD p w hp)).mp hm with rfl | rfl
      · rw [h0] at hp
        cases hp
      · rw [h1] at hp
        cases hp
    · refine ⟨[.star], h1, trivial, fun q w hq hm => ?_⟩
      rcases (matches_nil (hD q w hq)).mp hm with rfl | rfl
      · rw [h0] at hq
        cases hq
      · exact le_rfl
  · exact ⟨[], h0, trivial, fun q w _ _ => not_lt.mp (List.not_lt_nil _)⟩

theorem kinds_cons_le {t : Token K} {p q : List (Token K)} (h : kinds p ≤ kinds q) :
    kinds (t :: p) ≤ kinds (t :: q) :=
  List.cons_le_cons _ h

theorem kinds_lt {t u : Token K} (h : t.rank < u.rank) (p q : List (Token K)) :
    kinds (t :: p) ≤ kinds (u :: q) :=
  le_of_lt (List.Lex.rel h)

/-- **In the middle of a request**: first behind its key as a constant, then behind a wildcard, then
the star. -/
theorem finds_cons {D : Dict K V} (hD : NormalDict D) {h : K} {req : List K} {a b : Option V}
    (ha : Finds (D.after (.const h)) req a) (hb : Finds (D.after .wildcard) req b) :
    Finds D (h :: req) (a <|> b <|> D [.star]) := by
  rcases a with _ | v
  · rcases b with _ | v
    · rcases hs : D [.star] with _ | v
      · intro p w hp hm
        rcases (matches_cons (hD p w hp)).mp hm with ⟨q, rfl, hq⟩ | ⟨q, rfl, hq⟩ | rfl
        · exact ha q w hp hq
        · exact hb q w hp hq
        · rw [hs] at hp
          cases hp
      · refine ⟨[.star], hs, trivial, fun q w hq hm => ?_⟩
        rcases (matches_cons (hD q w hq)).mp hm with ⟨q, rfl, hm'⟩ | ⟨q, rfl, hm'⟩ | rfl
        · exact absurd hm' (ha q w hq)
        · exact absurd hm' (hb q w hq)
        · exact le_rfl
    · obtain ⟨p, hp, hpm, hleast⟩ := hb
      refine ⟨.wildcard :: p, hp, hpm, fun q w hq hm => ?_⟩
      rcases (matches_cons (hD q w hq)).mp hm with ⟨q, rfl, hm'⟩ | ⟨q, rfl, hm'⟩ | rfl
      · exact absurd hm' (ha q w hq)
      · exact kinds_cons_le (hleast q w hq hm')
      · exact kinds_lt (by simp [Token.rank]) _ _
  · obtain ⟨p, hp, hpm, hleast⟩ := ha
    refine ⟨.const h :: p, hp, ⟨rfl, hpm⟩, fun q w hq hm => ?_⟩
    rcases (matches_cons (hD q w hq)).mp hm with ⟨q, rfl, hm'⟩ | ⟨q, rfl, hm'⟩ | rfl
    · exact kinds_cons_le (hleast q w hq hm')
    · exact kinds_lt (by simp [Token.rank]) _ _
    · exact kinds_lt (by simp [Token.rank]) _ _

end Optics.Lib.Patterns
