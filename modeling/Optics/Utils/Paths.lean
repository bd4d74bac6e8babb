import Optics.Lib.Arrays
import Optics.Lib.Bytes
import Optics.Lib.Pieces
import Optics.Utils.Routing

/-! # Paths

`utils/crest/path.c`: the path of a request is copied and taken apart in place. One loop counts the
tokens, a second one puts zero bytes into the copy and pointers into an array of that length; each
decides by the previous character of the original whether a token starts, so both find the starts that
`Lib.Pieces` describes.

`path_new_tokens` is the result for a path as such; `represents_pathNew` connects it to the paths of
the router, which are lists of strings. -/

namespace Optics.Utils.Paths

open Optics.Base Optics.Lib.Arrays Optics.Lib.Bytes Optics.Lib.Pieces

/-- `'/'` -/
def slash : UInt8 := 47

/-- `'?'` -/
def question : UInt8 := 63

def maxPathLen : ℕ := 1024

/-- `struct path`; the block of `raw`, if the path has one, and positions in the block it was made
from. -/
structure Path where
  raw : Option Mem
  i : ℕ
  n : ℕ
  items : Cells ℕ n

/-! ### The loops of `path_new` -/

/-- `raw[i]` -/
def charAt (raw : CStr) (i : ℕ) : UInt8 := raw.val.getD i 0

/-- `i && raw[i - 1] != '/'`: a token goes on. -/
def Inside (raw : CStr) (i : ℕ) : Prop := i ≠ 0 ∧ charAt raw (i - 1) ≠ slash

instance decidableInside (raw : CStr) (i : ℕ) : Decidable (Inside raw i) :=
  inferInstanceAs (Decidable (i ≠ 0 ∧ charAt raw (i - 1) ≠ slash))

/-- The first loop, with the characters that are left: the number of tokens. -/
def countItems (raw : CStr) : ℕ → ℕ → ℕ → ℕ
  | 0, _, n => n
  | left + 1, i, n =>
    if charAt raw i = question then n
    else if charAt raw i = slash then countItems raw left (i + 1) n
    else if Inside raw i then countItems raw left (i + 1) n
    else countItems raw left (i + 1) (n + 1)

/-- `path->raw[i] = '\0'`, in a block of some size. -/
def terminate (size : ℕ) (block : Mem) (i : ℕ) : Outcome Mem :=
  if i < size then .ok (write block i [0]) else .error .undefined

/-- `path->items[j] = &path->raw[i]` -/
def setItem {n : ℕ} (items : Cells ℕ n) (j i : ℕ) : Outcome (Cells ℕ n) :=
  (store items j i).elim (.error .undefined) .ok

/-- The second loop: the block, the array and the number of items put there. -/
def fillItems (raw : CStr) (size : ℕ) {n : ℕ} :
    ℕ → ℕ → Mem → Cells ℕ n → ℕ → Outcome (Mem × Cells ℕ n × ℕ)
  | 0, _, block, items, j => .ok (block, items, j)
  | left + 1, i, block, items, j =>
    if charAt raw i = question then do
      let block ← terminate size block i
      .ok (block, items, j)
    else if charAt raw i = slash then do
      let block ← terminate size block i
      fillItems raw size left (i + 1) block items j
    else if Inside raw i then fillItems raw size left (i + 1) block items j
    else do
      let items ← setItem items j i
      fillItems raw size left (i + 1) block items (j + 1)

/-- `strndup`, to a block that has been allocated. -/
def strndup (block : Mem) (raw : CStr) (n : ℕ) : Mem := write block 0 ((raw.take n).val ++ [0])

/-- What the second loop starts from and leaves. -/
def pathFill (block : Mem) (raw : CStr) (n : ℕ) : Outcome (Mem × Cells ℕ n × ℕ) :=
  let rawLen := raw.strnlen maxPathLen
  fillItems raw (rawLen + 1) rawLen 0 (strndup block raw maxPathLen) (Vector.replicate n none) 0

/-- `path_new`, with the block that `strndup` gets. -/
def pathNew (block : Mem) (raw : CStr) : Outcome Path := do
  let rawLen := raw.strnlen maxPathLen
  let n := countItems raw rawLen 0 0
  let (block, items, _) ← pathFill block raw n
  .ok ⟨some block, 0, n, items⟩

/-! ### Reading a path -/

/-- `path->items[i]` -/
def pathItem (path : Path) (i : ℕ) : Outcome (Option ℕ) :=
  (load path.items i).elim (.error .undefined) fun p => .ok (some p)

/-- `path_empty`. -/
def pathEmpty (path : Path) : Bool := path.i = path.n

/-- `path_head`. -/
def pathHead (path : Path) : Outcome (Option ℕ) :=
  if path.i = path.n then .ok none else pathItem path path.i

/-- `path_tail`. -/
def pathTail (path : Path) : Path :=
  { path with raw := none, i := if path.i < path.n then path.i + 1 else path.n }

/-- `path_token`. -/
def pathToken (path : Path) (i : ℕ) : Outcome (Option ℕ) :=
  if i < path.n then pathItem path i else .ok none

/-- Heads are taken until the path is empty: the heads, and the empty path. -/
def pathWalk : ℕ → Path → Outcome (List (Option ℕ) × Path)
  | 0, _ => .error .diverge
  | fuel + 1, path =>
    if pathEmpty path then .ok ([], path)
    else do
      let head ← pathHead path
      let (heads, last) ← pathWalk fuel (pathTail path)
      .ok (head :: heads, last)

/-! ### What the loops find -/

/-- The part of a path that is looked at: the first 1024 bytes up to a question mark. -/
def relevant (raw : CStr) : List UInt8 := (raw.val.take maxPathLen).takeWhile (· ≠ question)

/-- The tokens of a path. -/
def tokens (raw : CStr) : List (List UInt8) := pieces slash (relevant raw)

/-- The starts of tokens in the rest of a path. -/
def startsFrom (raw : CStr) (i : ℕ) (l : List UInt8) : List ℕ :=
  starts slash (decide (Inside raw i)) i (l.takeWhile (· ≠ question))

/-- A slash becomes a zero byte. -/
def blank (x : UInt8) : UInt8 := if x = slash then 0 else x

variable {raw : CStr} {len i : ℕ} {x : UInt8} {l : List UInt8}

theorem charAt_of_drop (h : (raw.val.take len).drop i = x :: l) : charAt raw i = x := by
  have hget : (raw.val.take len)[i]? = some x := by
    rw [← Nat.add_zero i, ← List.getElem?_drop, h]
    rfl
  rw [List.getElem?_take] at hget
  split_ifs at hget
  rw [charAt, List.getD_eq_getElem?_getD, hget]
  rfl

theorem drop_succ (h : (raw.val.take len).drop i = x :: l) : (raw.val.take len).drop (i + 1) = l := by
  rw [← List.drop_drop, h]
  rfl

theorem startsFrom_question (hx : x = question) : startsFrom raw i (x :: l) = [] := by
  rw [startsFrom, List.takeWhile_cons_of_neg (by simpa using hx)]
  rfl

theorem inside_succ (h : (raw.val.take len).drop i = x :: l) : Inside raw (i + 1) ↔ x ≠ slash := by
  rw [Inside, Nat.add_sub_cancel, charAt_of_drop h]
  exact and_iff_right (Nat.succ_ne_zero i)

/-- No token starts at a slash or inside a token. -/
theorem startsFrom_skip (h : (raw.val.take len).drop i = x :: l) (hx : x ≠ question)
    (hskip : x = slash ∨ Inside raw i) : startsFrom raw i (x :: l) = startsFrom raw (i + 1) l := by
  rw [startsFrom, startsFrom, List.takeWhile_cons_of_pos (by simpa using hx), starts]
  by_cases hs : x = slash
  · rw [if_pos hs, decide_eq_false (fun hc => (inside_succ h).mp hc hs)]
  · rw [if_neg hs, decide_eq_true ((inside_succ h).mpr hs),
      if_pos (decide_eq_true (hskip.resolve_left hs))]

theorem startsFrom_item (h : (raw.val.take len).drop i = x :: l) (hx : x ≠ question) (hs : x ≠ slash)
    (hin : ¬Inside raw i) : startsFrom raw i (x :: l) = i :: startsFrom raw (i + 1) l := by
  rw [startsFrom, startsFrom, List.takeWhile_cons_of_pos (by simpa using hx), starts, if_neg hs,
    decide_eq_true ((inside_succ h).mpr hs), if_neg (by simpa using hin)]

/-- **The first loop** counts the starts. -/
theorem countItems_spec : ∀ {l : List UInt8} {i n : ℕ}, (raw.val.take len).drop i = l →
    countItems raw l.length i n = n + (startsFrom raw i l).length
  | [], _, _, _ => rfl
  | x :: l, i, n, h => by
    rw [List.length_cons, countItems, charAt_of_drop h]
    by_cases hq : x = question
    · rw [if_pos hq, startsFrom_question hq]
      rfl
    · rw [if_neg hq]
      by_cases hs : x = slash
      · rw [if_pos hs, startsFrom_skip h hq (.inl hs), countItems_spec (drop_succ h)]
      · rw [if_neg hs]
        by_cases hin : Inside raw i
        · rw [if_pos hin, startsFrom_skip h hq (.inr hin), countItems_spec (drop_succ h)]
        · rw [if_neg hin, startsFrom_item h hq hs hin, countItems_spec (drop_succ h),
            List.length_cons]
          omega

/-- What the second loop leaves from a position on: the array with the starts, their number, and the
bytes up to the question mark with the slashes blanked; the bytes behind the position stay. -/
structure Filled (raw : CStr) (i : ℕ) (l : List UInt8) (found : List ℕ) (block : Mem) {n : ℕ}
    (r : Mem × Cells ℕ n × ℕ) : Prop where
  items : Holds r.2.1 (found ++ startsFrom raw i l)
  count : r.2.2 = (found ++ startsFrom raw i l).length
  isStr : IsStr r.1 i ((l.takeWhile (· ≠ question)).map blank)
  below : ∀ a < i, r.1 a = block a

variable {n : ℕ} {r : Mem × Cells ℕ n × ℕ} {found : List ℕ} {block block1 : Mem}

theorem terminate_ok {size : ℕ} (block : Mem) (hi : i < size) : ∃ block1,
    terminate size block i = .ok block1 ∧ block1 i = 0 ∧ ∀ a ≠ i, block1 a = block a := by
  refine ⟨write block i [0], if_pos hi, ?_, fun a ha => ?_⟩
  · rw [write_apply le_rfl (by simp), Nat.sub_self]
    rfl
  · exact sameOff_write block i [0] a (by rw [List.length_singleton]; omega)

theorem filled_question {items : Cells ℕ n} (hx : x = question) (hitems : Holds items found)
    (hzero : block1 i = 0) (hbelow : ∀ a < i, block1 a = block a) :
    Filled raw i (x :: l) found block (block1, items, found.length) := by
  have hnil : found ++ startsFrom raw i (x :: l) = found := by
    rw [startsFrom_question hx, List.append_nil]
  refine ⟨hnil.symm ▸ hitems, congrArg List.length hnil.symm, ?_, hbelow⟩
  rw [List.takeWhile_cons_of_neg (by simpa using hx)]
  exact isStr_nil.mpr hzero

theorem Filled.skip (hr : Filled raw (i + 1) l found block1 r)
    (h : (raw.val.take len).drop i = x :: l) (hx : x ≠ question) (hskip : x = slash ∨ Inside raw i)
    (hhead : block1 i = blank x) (hbelow : ∀ a < i, block1 a = block a) :
    Filled raw i (x :: l) found block r := by
  have hstarts := startsFrom_skip h hx hskip
  refine ⟨hstarts ▸ hr.items, hstarts ▸ hr.count, ?_, fun a ha => ?_⟩
  · rw [List.takeWhile_cons_of_pos (by simpa using hx), List.map_cons]
    exact isStr_cons.mpr ⟨(hr.below i (Nat.lt_succ_self i)).trans hhead, hr.isStr⟩
  · exact (hr.below a (Nat.lt_succ_of_lt ha)).trans (hbelow a ha)

theorem Filled.item (hr : Filled raw (i + 1) l (found ++ [i]) block r)
    (h : (raw.val.take len).drop i = x :: l) (hx : x ≠ question) (hs : x ≠ slash)
    (hin : ¬Inside raw i) (hhead : block i = blank x) : Filled raw i (x :: l) found block r := by
  have hstarts : found ++ startsFrom raw i (x :: l) = found ++ [i] ++ startsFrom raw (i + 1) l := by
    rw [startsFrom_item h hx hs hin, List.append_cons]
  refine ⟨hstarts ▸ hr.items, hstarts ▸ hr.count, ?_, fun a ha => hr.below a (Nat.lt_succ_of_lt ha)⟩
  rw [List.takeWhile_cons_of_pos (by simpa using hx), List.map_cons]
  exact isStr_cons.mpr ⟨(hr.below i (Nat.lt_succ_self i)).trans hhead, hr.isStr⟩

/-- **The second loop** stays inside the block, and inside the array if there is room for the starts
in it. -/
theorem fillItems_spec (size : ℕ) : ∀ {l : List UInt8} {i : ℕ} {block : Mem} {items : Cells ℕ n}
    {found : List ℕ}, (raw.val.take len).drop i = l → IsStr block i l → i + l.length < size →
    Holds items found → found.length + (startsFrom raw i l).length ≤ n →
    ∃ r, fillItems raw size l.length i block items found.length = .ok r ∧
      Filled raw i l found block r
  | [], i, block, items, found, _, hstr, _, hitems, _ => by
    have hnil : found ++ startsFrom raw i [] = found := List.append_nil found
    exact ⟨_, rfl, hnil.symm ▸ hitems, congrArg List.length hnil.symm, hstr, fun a _ => rfl⟩
  | x :: l, i, block, items, found, h, hstr, hsize, hitems, hroom => by
    rw [List.length_cons] at hsize
    obtain ⟨block1, hterm, hzero, hoff⟩ := terminate_ok block (show i < size by omega)
    obtain ⟨hhead, htail⟩ := isStr_cons.mp hstr
    rw [List.length_cons, fillItems, charAt_of_drop h]
    by_cases hq : x = question
    · rw [if_pos hq, hterm, ok_bind]
      exact ⟨_, rfl, filled_question hq hitems hzero fun a ha => hoff a ha.ne⟩
    rw [if_neg hq]
    by_cases hs : x = slash
    · -- the zero byte is written to the block
      have htail1 : IsStr block1 (i + 1) l := htail.congr fun b hb _ => hoff b (by omega)
      rw [startsFrom_skip h hq (.inl hs)] at hroom
      obtain ⟨r, hrun, hr⟩ := fillItems_spec size (drop_succ h) htail1 (by omega) hitems hroom
      rw [if_pos hs, hterm, ok_bind]
      refine ⟨r, hrun, hr.skip h hq (.inl hs) ?_ fun a ha => hoff a ha.ne⟩
      rw [hzero, blank, if_pos hs]
    have hblank : block i = blank x := hhead.trans (if_neg hs).symm
    rw [if_neg hs]
    by_cases hin : Inside raw i
    · rw [startsFrom_skip h hq (.inr hin)] at hroom
      obtain ⟨r, hrun, hr⟩ := fillItems_spec size (drop_succ h) htail (by omega) hitems hroom
      rw [if_pos hin]
      exact ⟨r, hrun, hr.skip h hq (.inr hin) hblank fun a _ => rfl⟩
    · -- the pointer is put into the array
      rw [startsFrom_item h hq hs hin, List.length_cons] at hroom
      obtain ⟨items1, hstore, hitems1⟩ := hitems.push (by omega) i
      have hset : setItem items found.length i = .ok items1 := by
        rw [setItem, hstore]
        rfl
      have hlen : (found ++ [i]).length = found.length + 1 := List.length_append
      obtain ⟨r, hrun, hr⟩ := fillItems_spec size (drop_succ h) htail (by omega) hitems1 (by omega)
      rw [hlen] at hrun
      rw [if_neg hin, hset, ok_bind]
      exact ⟨r, hrun, hr.item h hq hs hin hblank⟩

/-! ### What a path is -/

/-- The pointers of a path, as positions in its block. -/
def pointers (raw : CStr) : List ℕ := starts slash false 0 (relevant raw)

theorem isStr_piece {m : Mem} : ∀ {l : List UInt8} {a : ℕ}, IsStr m a (l.map blank) →
    IsStr m a (l.takeWhile (· ≠ slash))
  | [], _, h => h
  | x :: l, a, h => by
    obtain ⟨hhead, htail⟩ := isStr_cons.mp h
    by_cases hs : x = slash
    · rw [List.takeWhile_cons_of_neg (by simpa using hs)]
      rw [blank, if_pos hs] at hhead
      exact isStr_nil.mpr hhead
    · rw [List.takeWhile_cons_of_pos (by simpa using hs)]
      rw [blank, if_neg hs] at hhead
      exact isStr_cons.mpr ⟨hhead, isStr_piece htail⟩

theorem isStr_tokens {m : Mem} {raw : CStr} (h : IsStr m 0 ((relevant raw).map blank)) :
    List.Forall₂ (IsStr m) (pointers raw) (tokens raw) := by
  rw [tokens, ← map_starts, List.forall₂_map_right_iff]
  refine List.forall₂_same.mpr fun p hp => ?_
  have hlt := (mem_starts hp).2
  have hdrop := h.drop (p := p) (by rw [List.length_map]; omega)
  rw [Nat.zero_add, ← List.map_drop] at hdrop
  exact isStr_piece hdrop

/-- **`path_new`**: the second loop puts as many pointers into the array as the first one counts. -/
theorem pathNew_spec (block : Mem) (raw : CStr) : ∃ copy path,
    pathNew block raw = .ok path ∧ path.raw = some copy ∧ path.i = 0 ∧
      path.n = (pointers raw).length ∧ Holds path.items (pointers raw) ∧
      pathFill block raw path.n = .ok (copy, path.items, path.n) ∧
      IsStr copy 0 ((relevant raw).map blank) := by
  have hlen : raw.strnlen maxPathLen = (raw.val.take maxPathLen).length := by
    rw [List.length_take, Nat.min_comm]
    rfl
  have h0 : (raw.val.take maxPathLen).drop 0 = raw.val.take maxPathLen := List.drop_zero
  have hstarts : startsFrom raw 0 (raw.val.take maxPathLen) = pointers raw := by
    rw [startsFrom, decide_eq_false (fun h => h.1 rfl)]
    rfl
  have hcount : countItems raw (raw.strnlen maxPathLen) 0 0 = (pointers raw).length := by
    rw [hlen, countItems_spec h0, hstarts, Nat.zero_add]
  have hdup : IsStr (strndup block raw maxPathLen) 0 (raw.val.take maxPathLen) :=
    isStr_write (s := []) fun _ hi => absurd hi (Nat.not_lt_zero _)
  obtain ⟨⟨copy, items, j⟩, hrun, hitems, hj, hstr, -⟩ :=
    fillItems_spec (n := (pointers raw).length) (raw.strnlen maxPathLen + 1) h0 hdup
      (by rw [hlen]; omega) (holds_nil (Vector.replicate _ none))
      (by rw [hstarts]; exact (Nat.zero_add _).le)
  rw [hstarts, List.nil_append] at hitems hj
  have hfill : pathFill block raw (pointers raw).length =
      .ok (copy, items, (pointers raw).length) := by
    rw [pathFill, hlen]
    rw [hlen] at hrun
    dsimp only at hj
    subst hj
    exact hrun
  refine ⟨copy, ⟨some copy, 0, _, items⟩, ?_, rfl, rfl, rfl, hitems, hfill, hstr⟩
  rw [pathNew, hcount, hfill]
  rfl

/-! ### Iteration -/

variable {path : Path} {ptrs : List ℕ}

theorem pathItem_eq (h : Holds path.items ptrs) {k : ℕ} (hk : k < ptrs.length) :
    pathItem path k = .ok (some ptrs[k]) := by
  rw [pathItem, h k hk]
  rfl

/-- `path_token` gives the pointers, and none behind them. -/
theorem pathToken_eq (h : Holds path.items ptrs) (hn : path.n = ptrs.length) (k : ℕ) :
    pathToken path k = .ok ptrs[k]? := by
  unfold pathToken
  by_cases hk : k < ptrs.length
  · rw [if_pos (hn ▸ hk), pathItem_eq h hk, List.getElem?_eq_getElem hk]
  · rw [if_neg (hn ▸ hk), List.getElem?_eq_none (Nat.le_of_not_lt hk)]

theorem pathHead_eq (h : Holds path.items ptrs) (hn : path.n = ptrs.length)
    (hi : path.i ≤ ptrs.length) : pathHead path = .ok (ptrs.drop path.i).head? := by
  rw [pathHead, List.head?_drop]
  rcases hi.lt_or_eq with hlt | heq
  · rw [if_neg (by omega), pathItem_eq h hlt, List.getElem?_eq_getElem hlt]
  · rw [if_pos (by omega), List.getElem?_eq_none heq.ge]

theorem pathTail_i (hi : path.i < path.n) : (pathTail path).i = path.i + 1 := if_pos hi

/-- **Heads and tails** list the pointers that are left. -/
theorem pathWalk_eq : ∀ (left : ℕ) {path : Path}, Holds path.items ptrs → path.n = ptrs.length →
    path.i + left = ptrs.length → ∃ last,
      pathWalk (left + 1) path = .ok ((ptrs.drop path.i).map some, last) ∧ pathEmpty last = true
  | 0, path, _, hn, hi => by
    have hempty : pathEmpty path = true := decide_eq_true (by omega)
    refine ⟨path, ?_, hempty⟩
    rw [pathWalk, if_pos hempty, List.drop_eq_nil_of_le (by omega)]
    rfl
  | left + 1, path, h, hn, hi => by
    have hlt : path.i < ptrs.length := by omega
    have hempty : pathEmpty path = false := decide_eq_false (by omega)
    have htail : (pathTail path).i = path.i + 1 := pathTail_i (by omega)
    have hitems : Holds (pathTail path).items ptrs := h
    obtain ⟨last, hwalk, hlast⟩ := pathWalk_eq left hitems hn (by omega)
    refine ⟨last, ?_, hlast⟩
    rw [pathWalk, if_neg (by simp [hempty]), pathHead_eq h hn hlt.le, ok_bind, hwalk, htail, ok_bind,
      List.drop_eq_getElem_cons hlt]
    rfl

/-- **A path holds the tokens of the string it is made from**, the non-empty pieces between slashes of
what stands in front of a question mark in the first 1024 bytes: there are as many as the first loop
counts and the second one puts into the array, each is terminated where its piece ends, and
`path_head` and `path_tail` list what `path_token` lists, until the path is empty. -/
theorem path_new_tokens (block : Mem) (raw : CStr) : ∃ copy path ptrs,
    pathNew block raw = .ok path ∧ path.raw = some copy ∧ path.n = (tokens raw).length ∧
      pathFill block raw path.n = .ok (copy, path.items, path.n) ∧
      List.Forall₂ (IsStr copy) ptrs (tokens raw) ∧
      (∀ k (hk : k < ptrs.length), pathToken path k = .ok (some ptrs[k])) ∧
      ∃ last, pathWalk (path.n + 1) path = .ok (ptrs.map some, last) ∧ pathEmpty last = true := by
  obtain ⟨copy, path, hnew, hraw, hi, hn, hitems, hfill, hstr⟩ := pathNew_spec block raw
  have htokens := isStr_tokens hstr
  refine ⟨copy, path, pointers raw, hnew, hraw, hn.trans htokens.length_eq, hfill, htokens,
    fun k hk => ?_, ?_⟩
  · rw [pathToken_eq hitems hn, List.getElem?_eq_getElem hk]
  · obtain ⟨last, hwalk, hlast⟩ := pathWalk_eq path.n hitems hn (by omega)
    rw [hi, List.drop_zero] at hwalk
    exact ⟨last, hwalk, hlast⟩

/-! ### The paths of the router -/

/-- A path, and the list of the items that are left in it. -/
def Represents (copy : Mem) (path : Path) (l : Routing.Path) : Prop :=
  ∃ ptrs, Holds path.items ptrs ∧ path.n = ptrs.length ∧ path.i ≤ path.n ∧
    List.Forall₂ (fun p (item : CStr) => IsStr copy p item.val) (ptrs.drop path.i) l

variable {copy : Mem} {l : Routing.Path} {item : CStr}

theorem Represents.empty_iff (h : Represents copy path l) : pathEmpty path = true ↔ l = [] := by
  obtain ⟨ptrs, -, hn, hi, hl⟩ := h
  have hlen := hl.length_eq
  rw [List.length_drop] at hlen
  rw [← List.length_eq_zero_iff, pathEmpty, decide_eq_true_iff]
  omega

theorem Represents.head (h : Represents copy path (item :: l)) :
    ∃ p, pathHead path = .ok (some p) ∧ IsStr copy p item.val := by
  obtain ⟨ptrs, hitems, hn, hi, hl⟩ := h
  obtain ⟨p, rest, hp, -, heq⟩ := List.forall₂_cons_right_iff.mp hl
  refine ⟨p, ?_, hp⟩
  rw [pathHead_eq hitems hn (hn ▸ hi), heq]
  rfl

theorem Represents.tail (h : Represents copy path (item :: l)) :
    Represents copy (pathTail path) l := by
  obtain ⟨ptrs, hitems, hn, hi, hl⟩ := h
  obtain ⟨p, rest, -, hrest, heq⟩ := List.forall₂_cons_right_iff.mp hl
  have hlt : path.i < path.n := by
    have hlen := congrArg List.length heq
    rw [List.length_drop, List.length_cons] at hlen
    omega
  refine ⟨ptrs, hitems, hn, ?_, ?_⟩
  · rw [pathTail_i hlt]
    exact hlt
  · rw [pathTail_i hlt, ← List.drop_drop, heq]
    exact hrest

theorem zero_notMem_token {raw : CStr} {t : List UInt8} (ht : t ∈ tokens raw) : (0 : UInt8) ∉ t := by
  rw [tokens, ← map_starts] at ht
  obtain ⟨p, -, rfl⟩ := List.mem_map.mp ht
  intro h0
  have hrelevant := List.mem_of_mem_drop ((List.takeWhile_subset _) h0)
  exact raw.property (List.mem_of_mem_take ((List.takeWhile_subset _) hrelevant))

/-- **The path of a request** is a list of strings for the router. -/
theorem represents_pathNew (block : Mem) (raw : CStr) : ∃ copy path l,
    pathNew block raw = .ok path ∧ path.raw = some copy ∧ Represents copy path l ∧
      l.map Subtype.val = tokens raw := by
  obtain ⟨copy, path, hnew, hraw, hi, hn, hitems, -, hstr⟩ := pathNew_spec block raw
  obtain ⟨l, hl⟩ : ∃ l : Routing.Path, l.map Subtype.val = tokens raw :=
    ⟨(tokens raw).attachWith _ fun _ => zero_notMem_token, List.attachWith_map_subtype_val _⟩
  have htokens := isStr_tokens hstr
  rw [← hl, List.forall₂_map_right_iff] at htokens
  refine ⟨copy, path, l, hnew, hraw, ⟨pointers raw, hitems, hn, ?_, ?_⟩, hl⟩
  · rw [hi]
    exact Nat.zero_le _
  · rwa [hi, List.drop_zero]

end Optics.Utils.Paths
