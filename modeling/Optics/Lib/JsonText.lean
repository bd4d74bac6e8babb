import Optics.Lib.Decimals
import Optics.Lib.Utf8
import Mathlib.Algebra.Order.Ring.Rat
import Mathlib.Data.List.Basic

/-! # JSON

A parser of JSON texts, byte by byte. A string is decoded: an escape stands for the byte or the bytes
of the character it names, a quote ends the string, control characters are not allowed, and any other
byte stands for itself; whether bytes from 128 on are well-formed UTF-8 is not looked at. A number is
the rational it denotes. An object is the list of its members, in the order of the text.

A text that is put between quotes comes back as it is exactly if it is `Clean`
(`parseString_eq_iff`). -/

namespace Optics.Lib.JsonText

open Optics.Lib.Decimals Optics.Lib.Utf8

/-- A JSON value. -/
inductive Json where
  | null
  | bool (b : Bool)
  | num (q : ℚ)
  | str (s : List UInt8)
  | arr (l : List Json)
  | obj (members : List (List UInt8 × Json))

/-! ### Characters -/

def quote : UInt8 := 34
def backslash : UInt8 := 92
def comma : UInt8 := 44
def colon : UInt8 := 58
def openBrace : UInt8 := 123
def closeBrace : UInt8 := 125
def openBracket : UInt8 := 91
def closeBracket : UInt8 := 93

/-- Whitespace. -/
def isWs (c : UInt8) : Bool := c = 32 || c = 9 || c = 10 || c = 13

def skipWs (s : List UInt8) : List UInt8 := s.dropWhile isWs

/-! ### Strings -/

/-- The byte that a backslash and a letter stand for. -/
def escape (c : UInt8) : Option UInt8 :=
  if c = 34 ∨ c = 92 ∨ c = 47 then some c
  else if c = 98 then some 8
  else if c = 102 then some 12
  else if c = 110 then some 10
  else if c = 114 then some 13
  else if c = 116 then some 9
  else none

def hexDigit (c : UInt8) : Option ℕ :=
  if 48 ≤ c ∧ c ≤ 57 then some (c.toNat - 48)
  else if 97 ≤ c ∧ c ≤ 102 then some (c.toNat - 87)
  else if 65 ≤ c ∧ c ≤ 70 then some (c.toNat - 55)
  else none

/-- Four hexadecimal digits. -/
def hex4 (a b c d : UInt8) : Option ℕ := do
  let a ← hexDigit a
  let b ← hexDigit b
  let c ← hexDigit c
  let d ← hexDigit d
  some (((a * 16 + b) * 16 + c) * 16 + d)

/-- The bytes of a character in UTF-8. -/
def utf8 (n : ℕ) : List UInt8 :=
  if n < 0x80 then [.ofNat n]
  else if n < 0x800 then [.ofNat (0xc0 + n / 64), .ofNat (0x80 + n % 64)]
  else if n < 0x10000 then
    [.ofNat (0xe0 + n / 4096), .ofNat (0x80 + n / 64 % 64), .ofNat (0x80 + n % 64)]
  else [.ofNat (0xf0 + n / 262144), .ofNat (0x80 + n / 4096 % 64), .ofNat (0x80 + n / 64 % 64),
    .ofNat (0x80 + n % 64)]

/-- The character of a surrogate pair. -/
def surrogates (high low : ℕ) : ℕ := 0x10000 + (high - 0xd800) * 0x400 + (low - 0xdc00)

/-- What a `\u` and its digits stand for, and how many bytes more they take if they are the first half
of a surrogate pair. -/
def unicode (n : ℕ) (rest : List UInt8) : Option (List UInt8 × ℕ) :=
  if n < 0xd800 ∨ 0xe000 ≤ n then some (utf8 n, 0)
  else if 0xdc00 ≤ n then none
  else
    match rest with
    | 92 :: 117 :: a :: b :: c :: d :: _ => do
      let low ← hex4 a b c d
      if 0xdc00 ≤ low ∧ low < 0xe000 then
        some (utf8 (surrogates n low), 6)
      else none
    | _ => none

/-- The part of a string behind its first quote: what it decodes to, and what follows it. -/
def parseString : ℕ → List UInt8 → Option (List UInt8 × List UInt8)
  | 0, _ => none
  | _ + 1, [] => none
  | fuel + 1, c :: rest =>
    if c = quote then some ([], rest)
    else if c = backslash then
      match rest with
      | 117 :: h1 :: h2 :: h3 :: h4 :: rest => do
        let n ← hex4 h1 h2 h3 h4
        let (bytes, more) ← unicode n rest
        let (s, rest) ← parseString fuel (rest.drop more)
        some (bytes ++ s, rest)
      | e :: rest => do
        let b ← escape e
        let (s, rest) ← parseString fuel rest
        some (b :: s, rest)
      | [] => none
    else if c < 32 then none
    else do
      let (s, rest) ← parseString fuel rest
      some (c :: s, rest)

/-! ### Numbers -/

def parseInt : List UInt8 → Option (ℕ × List UInt8)
  | [] => none
  | c :: rest =>
    if c = 48 then some (0, rest)
    else if isDigit c then
      let (ds, rest) := splitDigits (c :: rest)
      some (valueOf ds, rest)
    else none

def parseFrac : List UInt8 → Option (ℚ × List UInt8)
  | 46 :: rest =>
    let (ds, rest) := splitDigits rest
    if ds = [] then none else some ((valueOf ds : ℚ) / 10 ^ ds.length, rest)
  | s => some (0, s)

def parseExp : List UInt8 → Option (ℚ × List UInt8)
  | [] => some (1, [])
  | c :: rest =>
    if c = 101 ∨ c = 69 then
      let (neg, rest) := match rest with
        | 43 :: rest => (false, rest)
        | 45 :: rest => (true, rest)
        | rest => (false, rest)
      let (ds, rest) := splitDigits rest
      if ds = [] then none
      else some (if neg then 1 / 10 ^ valueOf ds else 10 ^ valueOf ds, rest)
    else some (1, c :: rest)

/-- Whether there is a minus sign, and what follows it. -/
def parseSign : List UInt8 → Bool × List UInt8
  | [] => (false, [])
  | c :: rest => if c = 45 then (true, rest) else (false, c :: rest)

def parseNumber (s : List UInt8) : Option (ℚ × List UInt8) := do
  let (neg, s) := parseSign s
  let (int, s) ← parseInt s
  let (frac, s) ← parseFrac s
  let (scale, s) ← parseExp s
  some (if neg then -((int + frac) * scale) else (int + frac) * scale, s)

/-! ### Values -/

/-- Items with commas in between, up to a closing byte. -/
def parseSeq {α : Type} (item : List UInt8 → Option (α × List UInt8)) (close : UInt8) :
    ℕ → List UInt8 → Option (List α × List UInt8)
  | 0, _ => none
  | fuel + 1, s => do
    let (a, s) ← item (skipWs s)
    match skipWs s with
    | [] => none
    | c :: s =>
      if c = comma then do
        let (as, s) ← parseSeq item close fuel s
        some (a :: as, s)
      else if c = close then some ([a], s)
      else none

/-- A list of items, which may be empty. -/
def parseList {α : Type} (item : List UInt8 → Option (α × List UInt8)) (close : UInt8)
    (s : List UInt8) : Option (List α × List UInt8) :=
  match skipWs s with
  | [] => none
  | c :: rest => if c = close then some ([], rest) else parseSeq item close s.length (c :: rest)

/-- A name, a colon and a value. -/
def parseMember (value : List UInt8 → Option (Json × List UInt8)) :
    List UInt8 → Option ((List UInt8 × Json) × List UInt8)
  | [] => none
  | c :: s =>
    if c = quote then do
      let (name, s) ← parseString s.length s
      match skipWs s with
      | [] => none
      | c :: s =>
        if c = colon then do
          let (v, s) ← value (skipWs s)
          some ((name, v), s)
        else none
    else none

/-- A literal. -/
def parseLit (lit : List UInt8) (v : Json) (s : List UInt8) : Option (Json × List UInt8) :=
  if s.take lit.length = lit then some (v, s.drop lit.length) else none

/-- A value; the fuel bounds the depth. -/
def parseValue : ℕ → List UInt8 → Option (Json × List UInt8)
  | 0, _ => none
  | _ + 1, [] => none
  | fuel + 1, c :: rest =>
    if c = quote then do
      let (s, rest) ← parseString rest.length rest
      some (.str s, rest)
    else if c = openBrace then do
      let (members, rest) ← parseList (parseMember (parseValue fuel)) closeBrace rest
      some (.obj members, rest)
    else if c = openBracket then do
      let (l, rest) ← parseList (parseValue fuel) closeBracket rest
      some (.arr l, rest)
    else if c = 116 then parseLit [116, 114, 117, 101] (.bool true) (c :: rest)
    else if c = 102 then parseLit [102, 97, 108, 115, 101] (.bool false) (c :: rest)
    else if c = 110 then parseLit [110, 117, 108, 108] .null (c :: rest)
    else do
      let (q, rest) ← parseNumber (c :: rest)
      some (.num q, rest)

/-- A text that is one value. -/
def parse (s : List UInt8) : Option Json :=
  match parseValue s.length (skipWs s) with
  | some (v, rest) => if skipWs rest = [] then some v else none
  | none => none

/-! ### Strings between quotes -/

/-- A text that needs no escapes. -/
def Clean (s : List UInt8) : Prop := ∀ c ∈ s, c ≠ quote ∧ c ≠ backslash ∧ 32 ≤ c

theorem parseString_quote {fuel : ℕ} {rest : List UInt8} :
    parseString (fuel + 1) (quote :: rest) = some ([], rest) := by
  unfold parseString
  exact if_pos rfl

theorem parseString_plain {fuel : ℕ} {c : UInt8} {rest : List UInt8} (hq : c ≠ quote)
    (hb : c ≠ backslash) : parseString (fuel + 1) (c :: rest) =
      if c < 32 then none else (parseString fuel rest).map fun r => (c :: r.1, r.2) := by
  conv_lhs => unfold parseString
  dsimp only
  rw [if_neg hq, if_neg hb]
  rcases parseString fuel rest with _ | ⟨s, r⟩ <;> rfl

/-- What a backslash does: an escaped byte, or a character by its number. -/
theorem parseString_backslash {fuel : ℕ} {rest name r : List UInt8}
    (h : parseString (fuel + 1) (backslash :: rest) = some (name, r)) :
    (∃ e rest' b s, rest = e :: rest' ∧ escape e = some b ∧
      parseString fuel rest' = some (s, r) ∧ name = b :: s) ∨
    (∃ h1 h2 h3 h4 rest' n bytes more s, rest = 117 :: h1 :: h2 :: h3 :: h4 :: rest' ∧
      hex4 h1 h2 h3 h4 = some n ∧ unicode n rest' = some (bytes, more) ∧
      parseString fuel (rest'.drop more) = some (s, r) ∧ name = bytes ++ s) := by
  unfold parseString at h
  dsimp only at h
  rw [if_neg (by decide), if_pos rfl] at h
  split at h
  · rename_i h1 h2 h3 h4 rest'
    obtain ⟨n, hn, h⟩ := Option.bind_eq_some_iff.mp h
    obtain ⟨⟨bytes, more⟩, hu, h⟩ := Option.bind_eq_some_iff.mp h
    obtain ⟨⟨s, r'⟩, hs, h⟩ := Option.bind_eq_some_iff.mp h
    cases h
    exact .inr ⟨h1, h2, h3, h4, rest', n, bytes, more, s, rfl, hn, hu, hs, rfl⟩
  · rename_i e rest' _
    obtain ⟨b, hb, h⟩ := Option.bind_eq_some_iff.mp h
    obtain ⟨⟨s, r'⟩, hs, h⟩ := Option.bind_eq_some_iff.mp h
    cases h
    exact .inl ⟨e, rest', b, s, rfl, hb, hs, rfl⟩
  · cases h

theorem parseString_clean {s rest : List UInt8} (h : Clean s) : ∀ {fuel : ℕ}, s.length < fuel →
    parseString fuel (s ++ quote :: rest) = some (s, rest) := by
  induction s with
  | nil =>
    intro fuel hf
    obtain ⟨fuel, rfl⟩ := Nat.exists_eq_add_one.mpr hf
    exact parseString_quote
  | cons c s ih =>
    intro fuel hf
    obtain ⟨fuel, rfl⟩ := Nat.exists_eq_add_one.mpr (Nat.zero_lt_of_lt hf)
    obtain ⟨hq, hb, h32⟩ := h c List.mem_cons_self
    rw [List.cons_append, parseString_plain hq hb, if_neg (UInt8.not_lt.mpr h32),
      ih (fun x hx => h x (List.mem_cons_of_mem _ hx)) (by simpa using hf)]
    rfl

theorem hexDigit_ne_quote {c : UInt8} {n : ℕ} (h : hexDigit c = some n) : c ≠ quote := by
  rintro rfl
  cases h

theorem utf8_length (n : ℕ) : (utf8 n).length ≤ 4 ∧ (n < 0x10000 → (utf8 n).length ≤ 3) := by
  unfold utf8
  split_ifs with h1 h2 h3
  · exact ⟨by simp, by simp⟩
  · exact ⟨by simp, by simp⟩
  · exact ⟨by simp, by simp⟩
  · exact ⟨by simp, fun h => absurd h h3⟩

theorem peel {pre rest l : List UInt8} {x : UInt8} (h : pre ++ quote :: rest = x :: l)
    (hx : x ≠ quote) : ∃ pre', pre = x :: pre' ∧ pre' ++ quote :: rest = l := by
  cases pre with
  | nil => exact absurd (List.cons.inj h).1.symm hx
  | cons y pre' =>
    obtain ⟨rfl, hl⟩ := List.cons.inj h
    exact ⟨pre', rfl, hl⟩

theorem peel_hex4 {pre rest l : List UInt8} {a b c d : UInt8} {n : ℕ}
    (h : pre ++ quote :: rest = a :: b :: c :: d :: l) (hn : hex4 a b c d = some n) :
    n < 0x10000 ∧ ∃ pre', pre = a :: b :: c :: d :: pre' ∧ pre' ++ quote :: rest = l := by
  unfold hex4 at hn
  obtain ⟨na, ha, hn⟩ := Option.bind_eq_some_iff.mp hn
  obtain ⟨nb, hb, hn⟩ := Option.bind_eq_some_iff.mp hn
  obtain ⟨nc, hc, hn⟩ := Option.bind_eq_some_iff.mp hn
  obtain ⟨nd, hd, hn⟩ := Option.bind_eq_some_iff.mp hn
  have hlt : ∀ {c : UInt8} {n : ℕ}, hexDigit c = some n → n < 16 := by
    intro c n h
    unfold hexDigit at h
    split_ifs at h with h1 h2 h3
    · cases h
      have := UInt8.le_iff_toNat_le.mp h1.2
      have h57 : (57 : UInt8).toNat = 57 := rfl
      omega
    · cases h
      have := UInt8.le_iff_toNat_le.mp h2.2
      have h102 : (102 : UInt8).toNat = 102 := rfl
      omega
    · cases h
      have := UInt8.le_iff_toNat_le.mp h3.2
      have h70 : (70 : UInt8).toNat = 70 := rfl
      omega
  obtain ⟨pre1, rfl, h1⟩ := peel h (hexDigit_ne_quote ha)
  obtain ⟨pre2, rfl, h2⟩ := peel h1 (hexDigit_ne_quote hb)
  obtain ⟨pre3, rfl, h3⟩ := peel h2 (hexDigit_ne_quote hc)
  obtain ⟨pre4, rfl, h4⟩ := peel h3 (hexDigit_ne_quote hd)
  have := hlt ha
  have := hlt hb
  have := hlt hc
  have := hlt hd
  cases hn
  exact ⟨by omega, pre4, rfl, h4⟩

/-- What is decoded from the bytes in front of a quote: not more bytes than these, and less if one of
them is a backslash, unless there is a quote among them. -/
def Shrinks (pre name : List UInt8) : Prop :=
  (name.length ≤ pre.length ∧ (backslash ∈ pre → name.length < pre.length)) ∨
    ∃ i < pre.length, name[i]? = some quote

/-- Some bytes of the name that stand for more bytes of the text, one of which is a backslash. -/
theorem Shrinks.escaped {pre name pre' bytes : List UInt8} (h : Shrinks pre name)
    (hlt : bytes.length + pre.length < pre'.length) : Shrinks pre' (bytes ++ name) := by
  rcases h with ⟨hle, -⟩ | ⟨i, hi, hq⟩
  · have hlen : (bytes ++ name).length < pre'.length := by
      rw [List.length_append]
      omega
    exact .inl ⟨hlen.le, fun _ => hlen⟩
  · refine .inr ⟨bytes.length + i, by omega, ?_⟩
    rw [List.getElem?_append_right (by omega), Nat.add_sub_cancel_left]
    exact hq

theorem unicode_shrinks {n more : ℕ} {pre rest bytes : List UInt8} (hn : n < 0x10000)
    (h : unicode n (pre ++ quote :: rest) = some (bytes, more)) :
    ∃ pre', (pre ++ quote :: rest).drop more = pre' ++ quote :: rest ∧ (∀ c ∈ pre', c ∈ pre) ∧
      bytes.length + pre'.length < pre.length + 6 := by
  unfold unicode at h
  split_ifs at h with h1 h2
  · cases h
    have := (utf8_length n).2 hn
    exact ⟨pre, rfl, fun c hc => hc, by omega⟩
  · split at h
    · rename_i a b c d rest' hl
      obtain ⟨low, hlow, h⟩ := Option.bind_eq_some_iff.mp h
      split_ifs at h with h3
      rw [Option.some.injEq, Prod.mk.injEq] at h
      obtain ⟨rfl, rfl⟩ := h
      obtain ⟨pre1, rfl, hl1⟩ := peel hl (by decide)
      obtain ⟨pre2, rfl, hl2⟩ := peel hl1 (by decide)
      obtain ⟨-, pre3, rfl, hl3⟩ := peel_hex4 hl2 hlow
      have := (utf8_length (surrogates n low)).1
      refine ⟨pre3, rfl, fun x hx => by simp [hx], ?_⟩
      simp only [List.length_cons]
      omega
    · cases h

/-- **A quoted string** is decoded from the bytes in front of its first quote, or from more. -/
theorem parseString_shrinks : ∀ {fuel : ℕ} {pre rest name r : List UInt8}, quote ∉ pre →
    parseString fuel (pre ++ quote :: rest) = some (name, r) → Shrinks pre name
  | 0, _, _, _, _, _, h => by
    unfold parseString at h
    cases h
  | fuel + 1, [], rest, name, r, _, h => by
    rw [List.nil_append, parseString_quote] at h
    cases h
    exact .inl ⟨le_rfl, fun hc => absurd hc List.not_mem_nil⟩
  | fuel + 1, c :: pre, rest, name, r, hq, h => by
    have hcq : c ≠ quote := fun hc => hq (hc ▸ List.mem_cons_self)
    have hpre : quote ∉ pre := fun hc => hq (List.mem_cons_of_mem _ hc)
    rw [List.cons_append] at h
    by_cases hb : c = backslash
    · subst hb
      rcases parseString_backslash h with ⟨e, rest', b, s, hl, he, hs, rfl⟩ |
        ⟨h1, h2, h3, h4, rest', n, bytes, more, s, hl, hn, hu, hs, rfl⟩
      · by_cases heq : e = quote
        · -- the quote is escaped
          subst heq
          cases he
          exact .inr ⟨0, Nat.zero_lt_succ _, rfl⟩
        · obtain ⟨pre', rfl, rfl⟩ := peel hl heq
          have ih := parseString_shrinks (fun hc => hpre (List.mem_cons_of_mem _ hc)) hs
          refine ih.escaped (show [b].length + pre'.length < _ from ?_)
          simp only [List.length_cons, List.length_nil]
          omega
      · obtain ⟨pre1, rfl, hl1⟩ := peel hl (by decide)
        obtain ⟨hlt, pre2, rfl, rfl⟩ := peel_hex4 hl1 hn
        obtain ⟨pre3, hdrop, hsub, hlen⟩ := unicode_shrinks hlt hu
        rw [hdrop] at hs
        have ih := parseString_shrinks (fun hc => hpre (by simp [hsub _ hc])) hs
        refine ih.escaped ?_
        simp only [List.length_cons]
        omega
    · rw [parseString_plain hcq hb] at h
      split_ifs at h with h32
      obtain ⟨⟨s, r'⟩, hs, h⟩ := Option.map_eq_some_iff.mp h
      cases h
      rcases parseString_shrinks hpre hs with ⟨hle, hlt⟩ | ⟨i, hi, hq'⟩
      · refine .inl ⟨Nat.succ_le_succ hle, fun hc => Nat.succ_lt_succ (hlt ?_)⟩
        exact (List.mem_cons.mp hc).resolve_left (Ne.symm hb)
      · exact .inr ⟨i + 1, Nat.succ_lt_succ hi, hq'⟩

theorem parseString_control : ∀ {fuel : ℕ} {pre rest : List UInt8} {o : List UInt8 × List UInt8},
    quote ∉ pre → backslash ∉ pre → parseString fuel (pre ++ quote :: rest) = some o →
    ∀ c ∈ pre, 32 ≤ c
  | 0, _, _, _, _, _, h => by
    unfold parseString at h
    cases h
  | fuel + 1, [], rest, o, _, _, _ => fun c hc => absurd hc List.not_mem_nil
  | fuel + 1, c :: pre, rest, o, hq, hb, h => by
    have hcq : c ≠ quote := fun hc => hq (hc ▸ List.mem_cons_self)
    have hcb : c ≠ backslash := fun hc => hb (hc ▸ List.mem_cons_self)
    rw [List.cons_append, parseString_plain hcq hcb] at h
    split_ifs at h with h32
    obtain ⟨o', ho, -⟩ := Option.map_eq_some_iff.mp h
    intro x hx
    rcases List.mem_cons.mp hx with rfl | hx
    · exact UInt8.not_lt.mp h32
    · exact parseString_control (fun hc => hq (List.mem_cons_of_mem _ hc))
        (fun hc => hb (List.mem_cons_of_mem _ hc)) ho x hx

/-- **A text between quotes** comes back as it is exactly if it is clean. -/
theorem parseString_eq_iff {fuel : ℕ} {s rest r : List UInt8} (hf : s.length < fuel) :
    parseString fuel (s ++ quote :: rest) = some (s, r) ↔ Clean s ∧ r = rest := by
  constructor
  · intro h
    have hq : quote ∉ s := by
      intro hmem
      -- the bytes in front of the first quote
      obtain ⟨pre, post, rfl, hpre⟩ := List.eq_append_cons_of_mem hmem
      rw [List.append_assoc, List.cons_append] at h
      rcases parseString_shrinks hpre h with ⟨hle, -⟩ | ⟨i, hi, hqi⟩
      · rw [List.length_append, List.length_cons] at hle
        omega
      · rw [List.getElem?_append_left hi] at hqi
        exact hpre (List.mem_of_getElem? hqi)
    have hb : backslash ∉ s := by
      intro hmem
      rcases parseString_shrinks hq h with ⟨-, hlt⟩ | ⟨i, -, hi⟩
      · exact lt_irrefl _ (hlt hmem)
      · exact hq (List.mem_of_getElem? hi)
    have hclean : Clean s := fun c hc =>
      ⟨fun he => hq (he ▸ hc), fun he => hb (he ▸ hc), parseString_control hq hb h c hc⟩
    rw [parseString_clean hclean hf] at h
    exact ⟨hclean, (Prod.mk.inj (Option.some.inj h)).2.symm⟩
  · rintro ⟨h, rfl⟩
    exact parseString_clean h hf

/-! ### Writing objects -/

/-- A member of an object: its name, the text of its value, and the value. -/
structure Member where
  name : List UInt8
  text : List UInt8
  value : Json

/-- The text of a member. -/
def Member.print (m : Member) : List UInt8 := quote :: m.name ++ quote :: colon :: m.text

/-- Texts with commas in between. -/
def commaSep : List (List UInt8) → List UInt8
  | [] => []
  | [t] => t
  | t :: u :: ts => t ++ comma :: commaSep (u :: ts)

theorem commaSep_cons (t : List UInt8) (ts : List (List UInt8)) :
    commaSep (t :: ts) = t ++ ts.flatMap (comma :: ·) := by
  induction ts generalizing t with
  | nil => rw [commaSep, List.flatMap_nil, List.append_nil]
  | cons u ts ih => rw [commaSep, ih u, List.flatMap_cons, List.cons_append]

/-- The text of an object. -/
def printObject (members : List Member) : List UInt8 :=
  openBrace :: commaSep (members.map Member.print) ++ [closeBrace]

/-- What may follow a value in an object, or at the end. -/
def Follows (rest : List UInt8) : Prop := ∀ c ∈ rest.head?, c = comma ∨ c = closeBrace

/-- The text is read as the value, whatever follows. -/
structure IsValue (t : List UInt8) (v : Json) : Prop where
  head : ∀ c ∈ t.head?, isWs c = false
  parse : ∀ fuel ≥ t.length, ∀ rest, Follows rest → parseValue fuel (t ++ rest) = some (v, rest)

theorem skipWs_cons {c : UInt8} {s : List UInt8} (h : isWs c = false) : skipWs (c :: s) = c :: s := by
  unfold skipWs
  rw [List.dropWhile_cons_of_neg (by rw [h]; decide)]

theorem IsValue.ne_nil {t : List UInt8} {v : Json} (h : IsValue t v) : t ≠ [] := by
  rintro rfl
  have hp := h.parse 0 le_rfl [] fun c hc => by cases hc
  unfold parseValue at hp
  cases hp

theorem IsValue.skipWs {t : List UInt8} {v : Json} (h : IsValue t v) (rest : List UInt8) :
    JsonText.skipWs (t ++ rest) = t ++ rest := by
  rcases t with _ | ⟨c, t⟩
  · exact absurd rfl h.ne_nil
  · exact skipWs_cons (h.head c rfl)

/-- **A member** is read back with its name exactly if the name is clean. -/
theorem parseMember_iff {m : Member} (hv : IsValue m.text m.value) {fuel : ℕ}
    (hf : m.text.length ≤ fuel) {rest r : List UInt8} (hrest : Follows rest) {w : Json} :
    parseMember (parseValue fuel) (m.print ++ rest) = some ((m.name, w), r) ↔
      Clean m.name ∧ w = m.value ∧ r = rest := by
  have hprint : m.print ++ rest = quote :: (m.name ++ quote :: (colon :: (m.text ++ rest))) := by
    simp [Member.print]
  have hlen : m.name.length < (m.name ++ quote :: (colon :: (m.text ++ rest))).length := by
    simp
  rw [hprint, parseMember, if_pos rfl]
  constructor
  · intro h
    obtain ⟨⟨name, s⟩, hstr, h⟩ := Option.bind_eq_some_iff.mp h
    dsimp only at h
    have hname : name = m.name := by
      split at h
      · cases h
      · split_ifs at h
        obtain ⟨⟨v, s'⟩, -, h⟩ := Option.bind_eq_some_iff.mp h
        cases h
        rfl
    subst hname
    obtain ⟨hclean, rfl⟩ := (parseString_eq_iff hlen).mp hstr
    rw [skipWs_cons (by decide)] at h
    dsimp only at h
    rw [if_pos rfl, hv.skipWs, hv.parse fuel hf rest hrest] at h
    cases h
    exact ⟨hclean, rfl, rfl⟩
  · rintro ⟨hclean, rfl, rfl⟩
    rw [(parseString_eq_iff hlen).mpr ⟨hclean, rfl⟩]
    have hcolon : ∀ s, JsonText.skipWs (colon :: s) = colon :: s := fun s => skipWs_cons rfl
    simp only [Option.bind_eq_bind, Option.bind_some, hcolon, if_true, hv.skipWs,
      hv.parse fuel hf _ hrest]

/-- The value that some members stand for. -/
def memberValues (members : List Member) : List (List UInt8 × Json) :=
  members.map fun m => (m.name, m.value)

/-- **One round**: a member and what stands behind it, a comma with more members or the end. -/
theorem parseSeq_cons_iff {m : Member} (hm : IsValue m.text m.value) {fuel : ℕ}
    (hf : m.text.length ≤ fuel) {n : ℕ} {c : UInt8} (hc : c = comma ∨ c = closeBrace)
    {s r : List UInt8} {ms : List (List UInt8 × Json)} :
    (parseSeq (parseMember (parseValue fuel)) closeBrace (n + 1) (m.print ++ c :: s) =
        some (ms, r) ∧ (ms.map Prod.fst).head? = some m.name) ↔
    Clean m.name ∧ ∃ ms', ms = (m.name, m.value) :: ms' ∧
      if c = comma then parseSeq (parseMember (parseValue fuel)) closeBrace n s = some (ms', r)
      else ms' = [] ∧ r = s := by
  have hfollows : Follows (c :: s) := by
    intro x hx
    cases hx
    exact hc
  have hskip : JsonText.skipWs (m.print ++ c :: s) = m.print ++ c :: s := skipWs_cons rfl
  have hskip' : JsonText.skipWs (c :: s) = c :: s := by
    rcases hc with rfl | rfl
    · exact skipWs_cons rfl
    · exact skipWs_cons rfl
  have hrun : parseSeq (parseMember (parseValue fuel)) closeBrace (n + 1) (m.print ++ c :: s) =
      (parseMember (parseValue fuel) (m.print ++ c :: s)).bind fun o =>
        match JsonText.skipWs o.2 with
        | [] => none
        | c :: s =>
          if c = comma then (parseSeq (parseMember (parseValue fuel)) closeBrace n s).bind
            fun o' => some (o.1 :: o'.1, o'.2)
          else if c = closeBrace then some ([o.1], s)
          else none := by
    rw [parseSeq, hskip]
    rfl
  have hmember := fun {w r} => @parseMember_iff m hm fuel hf (c :: s) r hfollows w
  rw [hrun]
  constructor
  · rintro ⟨h, hhead⟩
    obtain ⟨⟨⟨name, w⟩, s'⟩, hitem, h⟩ := Option.bind_eq_some_iff.mp h
    have hname : name = m.name := by
      dsimp only at h
      split at h
      · cases h
      · split_ifs at h
        · obtain ⟨o, -, h⟩ := Option.bind_eq_some_iff.mp h
          cases h
          exact Option.some.inj hhead
        · cases h
          exact Option.some.inj hhead
    subst hname
    obtain ⟨hclean, rfl, rfl⟩ := hmember.mp hitem
    refine ⟨hclean, ?_⟩
    dsimp only at h
    rw [hskip'] at h
    dsimp only at h
    by_cases hcomma : c = comma
    · rw [if_pos hcomma] at h
      obtain ⟨⟨ms', r'⟩, hseq, h⟩ := Option.bind_eq_some_iff.mp h
      cases h
      exact ⟨ms', rfl, by rwa [if_pos hcomma]⟩
    · rw [if_neg hcomma, if_pos (hc.resolve_left hcomma)] at h
      cases h
      exact ⟨[], rfl, by rw [if_neg hcomma]; exact ⟨rfl, rfl⟩⟩
  · rintro ⟨hclean, ms', rfl, h⟩
    refine ⟨?_, rfl⟩
    rw [hmember.mpr ⟨hclean, rfl, rfl⟩, Option.bind_some]
    dsimp only
    rw [hskip']
    dsimp only
    by_cases hcomma : c = comma
    · rw [if_pos hcomma] at h ⊢
      rw [h]
      rfl
    · rw [if_neg hcomma] at h ⊢
      obtain ⟨rfl, rfl⟩ := h
      exact if_pos (hc.resolve_left hcomma)

/-- **The members of an object** are read back with their names exactly if these are clean. -/
theorem parseSeq_iff {fuel : ℕ} {rest : List UInt8} : ∀ {members : List Member}, members ≠ [] →
    (∀ m ∈ members, IsValue m.text m.value ∧ m.text.length ≤ fuel) → ∀ {n : ℕ},
    members.length ≤ n → ∀ {ms : List (List UInt8 × Json)} {r : List UInt8},
    (parseSeq (parseMember (parseValue fuel)) closeBrace n
        (commaSep (members.map Member.print) ++ closeBrace :: rest) = some (ms, r) ∧
      ms.map Prod.fst = members.map Member.name) ↔
    ((∀ m ∈ members, Clean m.name) ∧ ms = memberValues members ∧ r = rest)
  | [m], _, hv, n, hn, ms, r => by
    obtain ⟨n, rfl⟩ := Nat.exists_eq_add_one.mpr (Nat.zero_lt_of_lt hn)
    obtain ⟨hm, hf⟩ := hv m List.mem_cons_self
    rw [show commaSep ([m].map Member.print) ++ closeBrace :: rest = m.print ++ closeBrace :: rest
      from rfl, List.forall_mem_singleton]
    constructor
    · rintro ⟨h, hnames⟩
      obtain ⟨hclean, ms', rfl, hend⟩ :=
        (parseSeq_cons_iff hm hf (.inr rfl)).mp ⟨h, by rw [hnames]; rfl⟩
      rw [if_neg (by decide)] at hend
      exact ⟨hclean, by rw [hend.1]; rfl, hend.2⟩
    · rintro ⟨hclean, rfl, rfl⟩
      have hend : (if closeBrace = comma then parseSeq (parseMember (parseValue fuel)) closeBrace n r =
          some ([], r) else ([] : List (List UInt8 × Json)) = [] ∧ r = r) := by
        rw [if_neg (by decide)]
        exact ⟨rfl, rfl⟩
      exact ⟨((parseSeq_cons_iff hm hf (.inr rfl)).mpr ⟨hclean, [], rfl, hend⟩).1, rfl⟩
  | m :: m' :: members, _, hv, n, hn, ms, r => by
    obtain ⟨n, rfl⟩ := Nat.exists_eq_add_one.mpr (Nat.zero_lt_of_lt hn)
    obtain ⟨hm, hf⟩ := hv m List.mem_cons_self
    have ih := fun {ms r} => @parseSeq_iff fuel rest (m' :: members) (List.cons_ne_nil m' members)
      (fun x hx => hv x (List.mem_cons_of_mem _ hx)) n (Nat.succ_le_succ_iff.mp hn) ms r
    rw [show commaSep ((m :: m' :: members).map Member.print) ++ closeBrace :: rest =
      m.print ++ comma :: (commaSep ((m' :: members).map Member.print) ++ closeBrace :: rest) from
        by simp [commaSep], List.forall_mem_cons]
    constructor
    · rintro ⟨h, hnames⟩
      obtain ⟨hclean, ms', rfl, hseq⟩ :=
        (parseSeq_cons_iff hm hf (.inl rfl)).mp ⟨h, by rw [hnames]; rfl⟩
      rw [if_pos rfl] at hseq
      obtain ⟨hall, rfl, hr⟩ := ih.mp ⟨hseq, (List.cons.inj hnames).2⟩
      exact ⟨⟨hclean, hall⟩, rfl, hr⟩
    · rintro ⟨⟨hclean, hall⟩, rfl, rfl⟩
      obtain ⟨hseq, hnames⟩ := ih.mpr ⟨hall, rfl, rfl⟩
      refine ⟨((parseSeq_cons_iff hm hf (.inl rfl)).mpr ⟨hclean, _, rfl, ?_⟩).1,
        congrArg (m.name :: ·) hnames⟩
      rw [if_pos rfl]
      exact hseq

theorem commaSep_length {ts : List (List UInt8)} {t : List UInt8} (h : t ∈ ts) :
    t.length ≤ (commaSep ts).length := by
  induction ts with
  | nil => exact absurd h List.not_mem_nil
  | cons u ts ih =>
    cases ts with
    | nil =>
      rw [List.mem_singleton.mp h]
      exact le_rfl
    | cons u' ts =>
      rw [commaSep, List.length_append, List.length_cons]
      rcases List.mem_cons.mp h with rfl | h
      · omega
      · have := ih h
        omega

theorem length_le_commaSep {members : List Member} :
    members.length ≤ (commaSep (members.map Member.print)).length := by
  induction members with
  | nil => exact Nat.zero_le _
  | cons m members ih =>
    cases members with
    | nil => simp [commaSep, Member.print]
    | cons m' members =>
      simp only [List.map_cons, commaSep, List.length_append, List.length_cons] at ih ⊢
      omega

/-- **An object** is read back with the names of its members exactly if these are clean. -/
theorem parseValue_object_iff {members : List Member}
    (hv : ∀ m ∈ members, IsValue m.text m.value) {fuel : ℕ} (hf : (printObject members).length ≤ fuel)
    {rest r : List UInt8} {ms : List (List UInt8 × Json)} :
    (parseValue fuel (printObject members ++ rest) = some (.obj ms, r) ∧
      ms.map Prod.fst = members.map Member.name) ↔
    ((∀ m ∈ members, Clean m.name) ∧ ms = memberValues members ∧ r = rest) := by
  have hprint : printObject members ++ rest =
      openBrace :: (commaSep (members.map Member.print) ++ closeBrace :: rest) := by
    simp [printObject]
  obtain ⟨fuel, rfl⟩ : ∃ f, fuel = f + 1 := Nat.exists_eq_add_one.mpr (lt_of_lt_of_le
    (by simp [printObject]) hf)
  have hrun : parseValue (fuel + 1) (printObject members ++ rest) =
      (parseList (parseMember (parseValue fuel)) closeBrace
        (commaSep (members.map Member.print) ++ closeBrace :: rest)).bind
          fun o => some (.obj o.1, o.2) := by
    rw [hprint]
    conv_lhs => unfold parseValue
    dsimp only
    rw [if_neg (by decide), if_pos rfl]
    rfl
  rw [hrun]
  have hlen := @length_le_commaSep members
  have hbound : ∀ m ∈ members, IsValue m.text m.value ∧ m.text.length ≤ fuel := by
    intro m hm
    refine ⟨hv m hm, ?_⟩
    have h1 := commaSep_length (List.mem_map_of_mem (f := Member.print) hm)
    simp only [printObject, Member.print, List.cons_append, List.length_cons, List.length_append,
      List.length_nil] at hf h1
    omega
  cases members with
  | nil =>
    have hlist : parseList (parseMember (parseValue fuel)) closeBrace (closeBrace :: rest) =
        some ([], rest) := by
      rw [parseList, skipWs_cons rfl]
      exact if_pos rfl
    rw [show commaSep (([] : List Member).map Member.print) ++ closeBrace :: rest =
      closeBrace :: rest from rfl, hlist]
    constructor
    · rintro ⟨h, -⟩
      cases h
      exact ⟨fun m hm => absurd hm List.not_mem_nil, rfl, rfl⟩
    · rintro ⟨-, rfl, rfl⟩
      exact ⟨rfl, rfl⟩
  | cons m members =>
    have hlist : parseList (parseMember (parseValue fuel)) closeBrace
        (commaSep ((m :: members).map Member.print) ++ closeBrace :: rest) =
        parseSeq (parseMember (parseValue fuel)) closeBrace
          (commaSep ((m :: members).map Member.print) ++ closeBrace :: rest).length
          (commaSep ((m :: members).map Member.print) ++ closeBrace :: rest) := by
      obtain ⟨s, hs⟩ : ∃ s, commaSep ((m :: members).map Member.print) ++ closeBrace :: rest =
          quote :: s := by
        cases members <;> exact ⟨_, rfl⟩
      rw [hs, parseList, skipWs_cons rfl]
      exact if_neg (by decide)
    have hn : (m :: members).length ≤
        (commaSep ((m :: members).map Member.print) ++ closeBrace :: rest).length := by
      rw [List.length_append]
      omega
    rw [hlist, ← parseSeq_iff (List.cons_ne_nil m members) hbound hn]
    refine and_congr_left fun _ => ⟨fun h => ?_, fun h => ?_⟩
    · obtain ⟨o, ho, h⟩ := Option.bind_eq_some_iff.mp h
      cases h
      exact ho
    · rw [h]
      rfl

/-- **An object** with clean names is a value. -/
theorem isValue_object {members : List Member} (hv : ∀ m ∈ members, IsValue m.text m.value)
    (hclean : ∀ m ∈ members, Clean m.name) :
    IsValue (printObject members) (.obj (memberValues members)) where
  head c hc := by
    cases hc
    rfl
  parse fuel hf rest _ := ((parseValue_object_iff hv hf).mpr ⟨hclean, rfl, rfl⟩).1

theorem IsValue.parse_eq {t : List UInt8} {v : Json} (h : IsValue t v) :
    JsonText.parse t = some v := by
  have hskip := h.skipWs []
  have hrun := h.parse t.length le_rfl [] fun c hc => by cases hc
  rw [List.append_nil] at hskip hrun
  rw [JsonText.parse, hskip, hrun]
  exact if_pos rfl

/-- **A text that is an object** has members with the names of some printed ones exactly if these are
clean. -/
theorem parse_object_iff {members : List Member} (hv : ∀ m ∈ members, IsValue m.text m.value) :
    (∃ ms, parse (printObject members) = some (.obj ms) ∧
      ms.map Prod.fst = members.map Member.name) ↔ ∀ m ∈ members, Clean m.name := by
  constructor
  · rintro ⟨ms, h, hnames⟩
    have hskip : JsonText.skipWs (printObject members) = printObject members := skipWs_cons rfl
    rw [parse, hskip] at h
    rcases hrun : parseValue (printObject members).length (printObject members) with _ | ⟨v, r⟩
    · rw [hrun] at h
      cases h
    · rw [hrun] at h
      dsimp only at h
      split_ifs at h
      cases h
      exact ((parseValue_object_iff hv le_rfl).mp
        ⟨(congrArg (parseValue _) (List.append_nil _)).trans hrun, hnames⟩).1
  · intro hclean
    exact ⟨_, (isValue_object hv hclean).parse_eq, by simp [memberValues]⟩

/-! ### UTF-8 -/

theorem isUtf8_commaSep : ∀ {ts : List (List UInt8)},
    IsUtf8 (commaSep ts) ↔ ∀ t ∈ ts, IsUtf8 t
  | [] => by simp [commaSep, isUtf8_nil]
  | [t] => by simp [commaSep]
  | t :: u :: ts => by
    rw [commaSep, isUtf8_cut (by decide), isUtf8_commaSep]
    simp

theorem isUtf8_print {m : Member} (h : Ascii m.text) : IsUtf8 m.print ↔ IsUtf8 m.name := by
  unfold Member.print
  rw [List.cons_append, isUtf8_cons (by decide), isUtf8_cut (by decide), isUtf8_cons (by decide)]
  exact and_iff_left h.isUtf8

/-- **An object** of ASCII values is UTF-8 exactly if the names of its members are. -/
theorem isUtf8_printObject {members : List Member} (h : ∀ m ∈ members, Ascii m.text) :
    IsUtf8 (printObject members) ↔ ∀ m ∈ members, IsUtf8 m.name := by
  unfold printObject
  rw [List.cons_append, isUtf8_cons (by decide), isUtf8_cut (by decide), and_iff_left isUtf8_nil,
    isUtf8_commaSep, List.forall_mem_map]
  exact forall₂_congr fun m hm => isUtf8_print (h m hm)

theorem ascii_commaSep : ∀ {ts : List (List UInt8)}, (∀ t ∈ ts, Ascii t) → Ascii (commaSep ts)
  | [], _ => fun _ hc => absurd hc List.not_mem_nil
  | [t], h => h t List.mem_cons_self
  | t :: u :: ts, h => (h t List.mem_cons_self).append (.cons (by decide)
      (ascii_commaSep fun x hx => h x (List.mem_cons_of_mem t hx)))

theorem ascii_printObject {members : List Member}
    (h : ∀ m ∈ members, Ascii m.name ∧ Ascii m.text) : Ascii (printObject members) := by
  refine .append (.cons (by decide) (ascii_commaSep ?_))
    (.cons (by decide) fun c hc => absurd hc List.not_mem_nil)
  rw [List.forall_mem_map]
  exact fun m hm => .append (.cons (by decide) (h m hm).1)
    (.cons (by decide) (.cons (by decide) (h m hm).2))

/-! ### Numbers -/

/-- What follows a number does not go on with it. -/
theorem Follows.digit {rest : List UInt8} (h : Follows rest) : ∀ c ∈ rest.head?, isDigit c = false := by
  intro c hc
  rcases h c hc with rfl | rfl <;> rfl

theorem parseInt_decimal (n : ℕ) {rest : List UInt8} (h : ∀ c ∈ rest.head?, isDigit c = false) :
    parseInt (decimal n ++ rest) = some (n, rest) := by
  have hsplit := splitDigits_append (fun c hc => decimal_digits (n := n) hc) h
  rcases hd : decimal n with _ | ⟨c, l⟩
  · exact absurd hd (decimal_ne_nil n)
  · rw [hd, List.cons_append] at hsplit
    rw [List.cons_append, parseInt]
    by_cases hc : c = 48
    · subst hc
      have hn := decimal_head hd
      subst hn
      cases hd
      exact if_pos rfl
    · have hdig : isDigit c = true := decimal_digits (n := n) (hd ▸ List.mem_cons_self)
      rw [if_neg hc, if_pos hdig, hsplit]
      dsimp only
      rw [← hd, valueOf_decimal]

theorem parseExp_none {rest : List UInt8} (h : Follows rest) : parseExp rest = some (1, rest) := by
  rcases rest with _ | ⟨c, rest⟩
  · rfl
  · rcases h c rfl with rfl | rfl <;> rfl

/-- A number: its sign, integer part, the digits behind the point if there are any, and the exponent,
negative or not, with its digits. -/
structure Numeral where
  neg : Bool
  int : ℕ
  frac : List UInt8
  exp : Option (Bool × List UInt8)

/-- The text behind the integer part. -/
def Numeral.printExp (n : Numeral) : List UInt8 :=
  match n.exp with
  | none => []
  | some (neg, ds) => 101 :: (if neg then 45 else 43) :: ds

def Numeral.printFrac (n : Numeral) : List UInt8 := if n.frac = [] then [] else 46 :: n.frac

def Numeral.print (n : Numeral) : List UInt8 :=
  (if n.neg then [45] else []) ++ (decimal n.int ++ (n.printFrac ++ n.printExp))

def Numeral.fracValue (n : Numeral) : ℚ :=
  if n.frac = [] then 0 else (valueOf n.frac : ℚ) / 10 ^ n.frac.length

def Numeral.scale (n : Numeral) : ℚ :=
  match n.exp with
  | none => 1
  | some (neg, ds) => if neg then 1 / 10 ^ valueOf ds else 10 ^ valueOf ds

/-- The number. -/
def Numeral.value (n : Numeral) : ℚ :=
  if n.neg then -((n.int + n.fracValue) * n.scale) else (n.int + n.fracValue) * n.scale

/-- The parts consist of digits. -/
structure Numeral.Valid (n : Numeral) : Prop where
  frac : ∀ c ∈ n.frac, isDigit c = true
  exp : ∀ neg ds, n.exp = some (neg, ds) → ds ≠ [] ∧ ∀ c ∈ ds, isDigit c = true

theorem parseExp_print {n : Numeral} (h : n.Valid) {rest : List UInt8} (hrest : Follows rest) :
    parseExp (n.printExp ++ rest) = some (n.scale, rest) := by
  unfold Numeral.printExp Numeral.scale
  rcases hexp : n.exp with _ | ⟨neg, ds⟩
  · exact parseExp_none hrest
  · obtain ⟨hne, hds⟩ := h.exp neg ds hexp
    have hsplit := splitDigits_append hds hrest.digit
    cases neg <;> simp [parseExp, hsplit, hne]

theorem parseFrac_print {n : Numeral} (h : n.Valid) {rest : List UInt8} (hrest : Follows rest) :
    parseFrac (n.printFrac ++ (n.printExp ++ rest)) =
      some (n.fracValue, n.printExp ++ rest) := by
  have hexp : ∀ c ∈ (n.printExp ++ rest).head?, isDigit c = false ∧ c ≠ 46 := by
    intro c hc
    unfold Numeral.printExp at hc
    rcases hexp : n.exp with _ | ⟨neg, ds⟩
    · rw [hexp] at hc
      rcases hrest c hc with rfl | rfl
      · exact ⟨rfl, by decide⟩
      · exact ⟨rfl, by decide⟩
    · rw [hexp] at hc
      cases hc
      exact ⟨rfl, by decide⟩
  unfold Numeral.printFrac Numeral.fracValue
  by_cases hf : n.frac = []
  · rw [if_pos hf, if_pos hf, List.nil_append]
    rcases hs : n.printExp ++ rest with _ | ⟨c, s⟩
    · rfl
    · rw [hs] at hexp
      unfold parseFrac
      split
      · rename_i heq
        cases heq
        exact absurd rfl (hexp 46 rfl).2
      · rfl
  · rw [if_neg hf, if_neg hf, List.cons_append, parseFrac,
      splitDigits_append h.frac fun c hc => (hexp c hc).1]
    exact if_neg hf

theorem digits_print (n : Numeral) {rest : List UInt8} (hrest : Follows rest) :
    ∀ c ∈ (n.printFrac ++ (n.printExp ++ rest)).head?, isDigit c = false := by
  intro c hc
  unfold Numeral.printFrac Numeral.printExp at hc
  split_ifs at hc
  · rcases hexp : n.exp with _ | ⟨neg, ds⟩
    · rw [hexp] at hc
      exact hrest.digit c hc
    · rw [hexp] at hc
      cases hc
      rfl
  · cases hc
    rfl

theorem parseSign_print (n : Numeral) (rest : List UInt8) : parseSign (n.print ++ rest) =
    (n.neg, decimal n.int ++ (n.printFrac ++ (n.printExp ++ rest))) := by
  unfold Numeral.print
  rcases n.neg with _ | _
  · rcases hd : decimal n.int with _ | ⟨c, l⟩
    · exact absurd hd (decimal_ne_nil n.int)
    · have hdig : isDigit c = true := decimal_digits (n := n.int) (hd ▸ List.mem_cons_self)
      have hc : c ≠ 45 := by
        rintro rfl
        cases hdig
      simp [parseSign, hc]
  · simp [parseSign]

theorem parseNumber_print {n : Numeral} (h : n.Valid) {rest : List UInt8} (hrest : Follows rest) :
    parseNumber (n.print ++ rest) = some (n.value, rest) := by
  rw [parseNumber, parseSign_print]
  simp only [Option.bind_eq_bind, parseInt_decimal n.int (digits_print n hrest),
    parseFrac_print h hrest, parseExp_print h hrest, Option.bind_some]
  rfl

theorem print_head (n : Numeral) : ∃ c l, n.print = c :: l ∧ (isDigit c = true ∨ c = 45) := by
  unfold Numeral.print
  rcases n.neg with _ | _
  · rcases hd : decimal n.int with _ | ⟨c, l⟩
    · exact absurd hd (decimal_ne_nil n.int)
    · exact ⟨c, _, rfl, .inl (decimal_digits (n := n.int) (hd ▸ List.mem_cons_self))⟩
  · exact ⟨45, _, rfl, .inr rfl⟩

theorem parseValue_number {fuel : ℕ} {c : UInt8} {s : List UInt8} (hc : isDigit c = true ∨ c = 45) :
    parseValue (fuel + 1) (c :: s) = (parseNumber (c :: s)).bind fun o => some (.num o.1, o.2) := by
  have hne : ∀ {d : UInt8}, isDigit d = false → d ≠ 45 → c ≠ d := by
    rintro d hd h45 rfl
    rcases hc with hc | hc
    · rw [hc] at hd
      cases hd
    · exact h45 hc
  unfold parseValue
  dsimp only
  rw [if_neg (hne rfl (by decide)), if_neg (hne rfl (by decide)), if_neg (hne rfl (by decide)),
    if_neg (hne rfl (by decide)), if_neg (hne rfl (by decide)), if_neg (hne rfl (by decide))]
  rfl

/-- **A number** is read. -/
theorem isValue_numeral {n : Numeral} (h : n.Valid) : IsValue n.print (.num n.value) where
  head c hc := by
    obtain ⟨c', l, hprint, hc'⟩ := print_head n
    rw [hprint] at hc
    cases hc
    by_contra hws
    have h : c = 32 ∨ c = 9 ∨ c = 10 ∨ c = 13 := by
      simp only [isWs, Bool.not_eq_false, Bool.or_eq_true, decide_eq_true_eq, or_assoc] at hws
      exact hws
    rcases h with rfl | rfl | rfl | rfl <;> rcases hc' with hc' | hc' <;> cases hc'
  parse fuel hf rest hrest := by
    obtain ⟨c, l, hprint, hc⟩ := print_head n
    obtain ⟨fuel, rfl⟩ : ∃ f, fuel = f + 1 := Nat.exists_eq_add_one.mpr (lt_of_lt_of_le
      (by rw [hprint]; exact Nat.zero_lt_succ _) hf)
    have hnum := parseNumber_print h hrest
    rw [hprint, List.cons_append] at hnum ⊢
    rw [parseValue_number hc, hnum]
    rfl

/-- **A numeral** is a number. -/
theorem isValue_decimal (n : ℕ) : IsValue (decimal n) (.num n) := by
  have h := isValue_numeral (n := ⟨false, n, [], none⟩) ⟨fun c hc => absurd hc List.not_mem_nil,
    fun neg ds he => nomatch he⟩
  have hprint : (⟨false, n, [], none⟩ : Numeral).print = decimal n := by
    simp [Numeral.print, Numeral.printFrac, Numeral.printExp]
  have hvalue : (⟨false, n, [], none⟩ : Numeral).value = n := by
    simp [Numeral.value, Numeral.fracValue, Numeral.scale]
  rwa [hprint, hvalue] at h

end Optics.Lib.JsonText
