import Optics.Base
import Optics.Lib.Bytes
import Optics.Lenses

/-! # Keys

`utils/key.c`: a dotted key is built in an array of 256 bytes by pushing one part after the other,
and taken apart again by going back to an earlier length. What does not fit is cut off.

A caller keeps the positions that pushes return and passes the last one to the next pop. `key_follows`
says that the key then follows a stack of texts: a push puts the cut text on top of the stack, a pop
takes it off (`texts`). -/

namespace Optics.Utils.Keys

open Optics.Base Optics.Lib.Bytes Optics.Lenses

/-- `'.'` -/
def dot : UInt8 := 46

/-- `struct optics_key`; `data` is an array of `optics_name_max_len` bytes. -/
structure OpticsKey where
  len : ℕ
  data : Mem

/-- `(struct optics_key) {0}`. -/
def OpticsKey.zero : OpticsKey := ⟨0, fun _ => 0⟩

/-- `key.data`, as a string. -/
def OpticsKey.str (key : OpticsKey) : CStr :=
  ⟨readStr key.data opticsNameMaxLen 0, zero_notMem_readStr key.data _ _⟩

/-- `strlcpy` to a position of an array: what fits in front of a terminator is copied, and the length
of the source is returned. -/
def strlcpy (data : Mem) (pos : ℕ) (src : CStr) (size : ℕ) : Mem × ℕ :=
  (if size = 0 then data else write data pos (src.val.take (size - 1) ++ [0]), src.val.length)

/-- `optics_key_push`: the key and the length it had. -/
def opticsKeyPush (key : OpticsKey) (suffix : CStr) : Outcome (OpticsKey × ℕ) :=
  let old := key.len
  if key.len + 1 = opticsNameMaxLen then .ok (key, old)
  else do
    let key : OpticsKey :=
      if key.len ≠ 0 then ⟨key.len + 1, write key.data key.len [dot]⟩ else key
    let (data, n) := strlcpy key.data key.len suffix (opticsNameMaxLen - key.len)
    let len := key.len + n
    let len := if len ≥ opticsNameMaxLen then opticsNameMaxLen - 1 else len
    opticsAssert (data len = 0)
    .ok (⟨len, data⟩, old)

/-- `optics_key_pushf`, with the text the format gives. -/
def opticsKeyPushf (key : OpticsKey) (text : CStr) : Outcome (OpticsKey × ℕ) :=
  opticsKeyPush key (text.take (opticsNameMaxLen - 1))

/-- `optics_key_pop`. -/
def opticsKeyPop (key : OpticsKey) (pos : ℕ) : Outcome OpticsKey := do
  opticsAssert (pos ≤ key.len)
  .ok ⟨pos, write key.data pos [0]⟩

/-! ### Dotted text -/

/-- A part put behind a text, with a dot in between unless the text is empty. -/
def join (s t : List UInt8) : List UInt8 := if s = [] then t else s ++ dot :: t

theorem join_take (n : ℕ) (s t : List UInt8) : (join (s.take (n + 1)) t).take (n + 1) =
    (join s t).take (n + 1) := by
  cases s with
  | nil => rfl
  | cons x s =>
    unfold join
    rw [if_neg (by simp), if_neg (by simp), List.take_append, List.take_append, List.take_take,
      Nat.min_self, List.length_take]
    rcases Nat.lt_or_ge n (x :: s).length with h | h
    · rw [show n + 1 - min (n + 1) (x :: s).length = 0 by omega,
        show n + 1 - (x :: s).length = 0 by omega]
    · rw [min_eq_right (by omega)]

/-- The key holds a text. -/
structure OpticsKey.Holds (key : OpticsKey) (s : List UInt8) : Prop where
  isStr : IsStr key.data 0 s
  len : key.len = s.length
  lt : s.length < opticsNameMaxLen
  zero : (0 : UInt8) ∉ s

theorem OpticsKey.holds_zero : OpticsKey.zero.Holds [] :=
  ⟨⟨fun i hi => absurd hi (Nat.not_lt_zero i), rfl⟩, rfl, by decide, List.not_mem_nil⟩

theorem OpticsKey.Holds.str {key : OpticsKey} {s : List UInt8} (h : key.Holds s) :
    key.str.val = s := by
  show readStr key.data opticsNameMaxLen 0 = s
  rw [h.isStr.readStr h.zero, List.take_of_length_le h.lt.le]

theorem OpticsKey.Holds.dotted {key : OpticsKey} {s : List UInt8} (h : key.Holds s)
    (hfull : s.length + 1 ≠ opticsNameMaxLen) (suffix : List UInt8) : ∃ t,
      let key1 : OpticsKey :=
        if key.len ≠ 0 then ⟨key.len + 1, write key.data key.len [dot]⟩ else key
      join s suffix = t ++ suffix ∧ key1.len = t.length ∧
        (∀ i, i < t.length → key1.data i = t.getD i 0) ∧ t.length < opticsNameMaxLen ∧
        (0 : UInt8) ∉ t := by
  have hlt := h.lt
  by_cases hs : s = []
  · subst hs
    rw [if_neg (by rw [h.len]; simp)]
    exact ⟨[], rfl, h.len, fun i hi => absurd hi (Nat.not_lt_zero i), hlt, List.not_mem_nil⟩
  · have hpos : 0 < s.length := List.length_pos_iff.mpr hs
    rw [if_pos (by rw [h.len]; omega)]
    refine ⟨s ++ [dot], ?_, ?_, fun i hi => ?_, ?_, ?_⟩
    · rw [join, if_neg hs, List.append_assoc]
      rfl
    · rw [h.len, List.length_append]
      rfl
    · rw [List.length_append, List.length_singleton] at hi
      dsimp only
      rw [h.len]
      rcases Nat.lt_or_ge i s.length with hi' | hi'
      · rw [(sameOff_write key.data s.length [dot]) i (by omega), List.getD_append _ _ _ _ hi']
        simpa using h.isStr.1 i hi'
      · have hi'' : i = s.length := by omega
        subst hi''
        rw [write_apply le_rfl (by simp)]
        simp
    · rw [List.length_append, List.length_singleton]
      omega
    · rw [List.mem_append, not_or]
      exact ⟨h.zero, by decide⟩

/-- **A push** puts a part behind the text and cuts the result at 255 bytes; its assertion holds. -/
theorem opticsKeyPush_spec {key : OpticsKey} {s : List UInt8} (h : key.Holds s) (suffix : CStr) :
    ∃ key', opticsKeyPush key suffix = .ok (key', s.length) ∧
      key'.Holds ((join s suffix.val).take (opticsNameMaxLen - 1)) := by
  unfold opticsKeyPush
  have hlt := h.lt
  by_cases hfull : s.length + 1 = opticsNameMaxLen
  · rw [h.len]
    dsimp only
    rw [if_pos hfull]
    refine ⟨key, rfl, ?_⟩
    have hne : s ≠ [] := fun hc => by
      rw [hc] at hfull
      cases hfull
    rwa [join, if_neg hne, List.take_left' (by omega)]
  · -- the text with its dot
    obtain ⟨t, hjoin, hlen1, hget1, hlt1, hzero1⟩ := h.dotted hfull suffix.val
    obtain ⟨key1, hkey1⟩ : ∃ key1, (if key.len ≠ 0 then
      (⟨key.len + 1, write key.data key.len [dot]⟩ : OpticsKey) else key) = key1 := ⟨_, rfl⟩
    rw [hkey1] at hlen1 hget1
    rw [h.len] at hkey1 ⊢
    dsimp only
    rw [if_neg hfull, hkey1]
    set l := suffix.val.take (opticsNameMaxLen - t.length - 1) with hl
    have hstr : IsStr (write key1.data t.length (l ++ [0])) 0 (t ++ l) := isStr_write hget1
    have htl : (t ++ suffix.val).take (opticsNameMaxLen - 1) = t ++ l := by
      rw [List.take_append, List.take_of_length_le (by omega), hl]
      congr 2
      omega
    have hsize : opticsNameMaxLen - t.length ≠ 0 := by omega
    have hlen : (if t.length + suffix.val.length ≥ opticsNameMaxLen then opticsNameMaxLen - 1
        else t.length + suffix.val.length) = (t ++ l).length := by
      rw [List.length_append, hl, List.length_take]
      split_ifs with hge
      · rw [min_eq_left (by omega)]
        omega
      · rw [min_eq_right (by omega)]
    simp only [strlcpy, hlen1, if_neg hsize]
    rw [hlen, ← hl, opticsAssert_pos (by simpa using hstr.2), ok_bind, hjoin, htl]
    refine ⟨_, rfl, hstr, rfl, ?_, ?_⟩
    · rw [List.length_append, hl, List.length_take]
      omega
    · rw [List.mem_append, not_or]
      exact ⟨hzero1, fun hc => suffix.property (List.mem_of_mem_take hc)⟩

/-- **A pop** goes back to a text that the key begins with. -/
theorem opticsKeyPop_spec {key : OpticsKey} {s t : List UInt8} (h : key.Holds t) (hst : s <+: t) :
    ∃ key', opticsKeyPop key s.length = .ok key' ∧ key'.Holds s := by
  have hle : s.length ≤ t.length := hst.length_le
  have hlt := h.lt
  have hget : ∀ i < s.length, key.data i = s.getD i 0 := fun i hi => by
    obtain ⟨u, rfl⟩ := hst
    have hdata := h.isStr.1 i (by omega)
    rw [Nat.zero_add, List.getD_append _ _ _ _ hi] at hdata
    exact hdata
  have hstr := isStr_write (l := []) hget
  rw [List.append_nil] at hstr
  refine ⟨⟨s.length, write key.data s.length [0]⟩, ?_, hstr, rfl, by omega,
    fun hc => h.zero (hst.subset hc)⟩
  rw [opticsKeyPop, h.len, opticsAssert_pos hle, ok_bind]

theorem join_take_right (n : ℕ) (s t : List UInt8) : (join s (t.take n)).take n =
    (join s t).take n := by
  unfold join
  split_ifs
  · rw [List.take_take, Nat.min_self]
  · have htake : ∀ a : List UInt8, (a ++ t.take n).take n = (a ++ t).take n := fun a => by
      rw [List.take_append, List.take_append, List.take_take, Nat.min_eq_left (Nat.sub_le _ _)]
    rw [List.append_cons, htake, ← List.append_cons]

theorem prefix_join_take {n : ℕ} {s : List UInt8} (hs : s.length ≤ n) (t : List UInt8) :
    s <+: (join s t).take n := by
  refine List.prefix_take_iff.mpr ⟨?_, hs⟩
  unfold join
  split_ifs with h
  · rw [h]
    exact List.nil_prefix
  · exact List.prefix_append _ _

/-! ### Nested pushes and pops -/

/-- A call; a formatted push with the text the format gives, a pop with the position of the last push
that has not been undone. -/
inductive Op where
  | push (suffix : CStr)
  | pushf (text : CStr)
  | pop

/-- The key, and the positions to go back to. -/
abbrev State := OpticsKey × List ℕ

/-- A call. -/
def exec (s : State) : Op → Outcome State
  | .push suffix => do
    let (key, pos) ← opticsKeyPush s.1 suffix
    .ok (key, pos :: s.2)
  | .pushf text => do
    let (key, pos) ← opticsKeyPushf s.1 text
    .ok (key, pos :: s.2)
  | .pop =>
    match s.2 with
    | [] => .error .undefined
    | pos :: rest => do
      let key ← opticsKeyPop s.1 pos
      .ok (key, rest)

/-- One call after the other. -/
def run : List Op → State → Outcome State
  | [], s => .ok s
  | op :: ops, s => do
    let s ← exec s op
    run ops s

/-- Every pop has a push in front of it, with some pushes made before. -/
def Matched : ℕ → List Op → Prop
  | _, [] => True
  | n, .push _ :: ops => Matched (n + 1) ops
  | n, .pushf _ :: ops => Matched (n + 1) ops
  | 0, .pop :: _ => False
  | n + 1, .pop :: ops => Matched n ops

/-- A text with a part put behind it, cut at 255 bytes. -/
def joinCut (s t : List UInt8) : List UInt8 := (join s t).take (opticsNameMaxLen - 1)

/-- What the calls mean: the text, and the texts that pops go back to. -/
def texts : List Op → List UInt8 → List (List UInt8) → List UInt8 × List (List UInt8)
  | [], s, below => (s, below)
  | .push suffix :: ops, s, below => texts ops (joinCut s suffix.val) (s :: below)
  | .pushf text :: ops, s, below => texts ops (joinCut s text.val) (s :: below)
  | .pop :: ops, s, [] => texts ops s []
  | .pop :: ops, _, t :: below => texts ops t below

/-- The key holds the text, and the positions are the lengths of texts that it begins with. -/
structure Follows (st : State) (s : List UInt8) (below : List (List UInt8)) : Prop where
  key : st.1.Holds s
  positions : st.2 = below.map List.length
  chain : (s :: below).IsChain fun s t => t <+: s

variable {st : State} {s t : List UInt8} {below : List (List UInt8)}

theorem Follows.push (h : Follows st s below) (suffix : CStr) :
    ∃ key', opticsKeyPush st.1 suffix = .ok (key', s.length) ∧
      Follows (key', s.length :: st.2) (joinCut s suffix.val) (s :: below) := by
  obtain ⟨key', hpush, hkey⟩ := opticsKeyPush_spec h.key suffix
  have hle : s.length ≤ opticsNameMaxLen - 1 := Nat.le_pred_of_lt h.key.lt
  refine ⟨key', hpush, hkey, ?_, List.isChain_cons_cons.mpr ⟨prefix_join_take hle _, h.chain⟩⟩
  rw [h.positions, List.map_cons]

theorem Follows.pop (h : Follows st s (t :: below)) :
    ∃ key', opticsKeyPop st.1 t.length = .ok key' ∧
      Follows (key', below.map List.length) t below := by
  obtain ⟨hbegins, hchain⟩ := List.isChain_cons_cons.mp h.chain
  obtain ⟨key', hpop, hkey⟩ := opticsKeyPop_spec h.key hbegins
  exact ⟨key', hpop, hkey, rfl, hchain⟩

/-- **A matched sequence of calls** returns, and the key follows the texts. -/
theorem run_follows : ∀ {ops : List Op} {st : State} {s : List UInt8} {below : List (List UInt8)},
    Follows st s below → Matched below.length ops →
      ∃ st', run ops st = .ok st' ∧ Follows st' (texts ops s below).1 (texts ops s below).2
  | [], st, _, _, h, _ => ⟨st, rfl, h⟩
  | .push suffix :: ops, st, s, below, h, hm => by
    obtain ⟨key', hpush, hkey⟩ := h.push suffix
    obtain ⟨st', hrun, h'⟩ := run_follows hkey hm
    refine ⟨st', ?_, h'⟩
    rw [run, exec, hpush]
    exact hrun
  | .pushf text :: ops, st, s, below, h, hm => by
    have hcut : joinCut s (text.take (opticsNameMaxLen - 1)).val = joinCut s text.val :=
      join_take_right _ _ _
    obtain ⟨key', hpush, hkey⟩ := h.push (text.take (opticsNameMaxLen - 1))
    rw [hcut] at hkey
    obtain ⟨st', hrun, h'⟩ := run_follows hkey hm
    refine ⟨st', ?_, h'⟩
    rw [run, exec, opticsKeyPushf, hpush]
    exact hrun
  | .pop :: ops, st, s, t :: below, h, hm => by
    obtain ⟨key', hpop, hkey⟩ := h.pop
    obtain ⟨st', hrun, h'⟩ := run_follows hkey hm
    refine ⟨st', ?_, h'⟩
    rw [run, exec, h.positions, List.map_cons]
    dsimp only
    rw [hpop]
    exact hrun

theorem matched_of_append : ∀ (ops : List Op) {ops' : List Op} {n : ℕ},
    Matched n (ops ++ ops') → Matched n ops
  | [], _, _, _ => trivial
  | .push _ :: ops, _, _, h => matched_of_append ops h
  | .pushf _ :: ops, _, _, h => matched_of_append ops h
  | .pop :: _, _, 0, h => h.elim
  | .pop :: ops, _, _ + 1, h => matched_of_append ops h

theorem texts_append : ∀ (ops ops' : List Op) (s : List UInt8) (below : List (List UInt8)),
    texts (ops ++ ops') s below = texts ops' (texts ops s below).1 (texts ops s below).2
  | [], _, _, _ => rfl
  | .push _ :: ops, ops', _, _ => texts_append ops ops' _ _
  | .pushf _ :: ops, ops', _, _ => texts_append ops ops' _ _
  | .pop :: ops, ops', _, [] => texts_append ops ops' _ _
  | .pop :: ops, ops', _, _ :: _ => texts_append ops ops' _ _

/-- Calls among which every push has its pop. -/
inductive Nested : List Op → Prop
  | nil : Nested []
  | wrap {op : Op} {inner rest : List Op} : op ≠ .pop → Nested inner → Nested rest →
      Nested (op :: inner ++ .pop :: rest)

theorem Nested.texts_eq {ops : List Op} (h : Nested ops) : ∀ (s : List UInt8)
    (below : List (List UInt8)), texts ops s below = (s, below) := by
  induction h with
  | nil => exact fun _ _ => rfl
  | @wrap op inner rest hop _ _ ihinner ihrest =>
    intro s below
    rw [List.cons_append]
    cases op with
    | push suffix => rw [texts, texts_append, ihinner, texts, ihrest]
    | pushf text => rw [texts, texts_append, ihinner, texts, ihrest]
    | pop => exact absurd rfl hop

/-- **A key follows a truncating dotted join.** In any sequence of pushes and pops in which the pops
match, no assertion fires; the key is terminated in its array, with no zero byte in the text, which is
the join of what has been pushed and not popped (`texts`). After a push, calls among which every push
has its pop, and a pop, the key has the text it had before. -/
theorem key_follows (ops : List Op) (hm : Matched 0 ops) : ∃ key positions,
    run ops (OpticsKey.zero, []) = .ok (key, positions) ∧
      key.len ≤ 255 ∧ key.data key.len = 0 ∧ (∀ i < key.len, key.data i ≠ 0) ∧
      key.str.val = (texts ops [] []).1 ∧
      ∀ before op inner, ops = before ++ (op :: inner ++ [.pop]) → op ≠ .pop → Nested inner →
        ∃ key0 positions0, run before (OpticsKey.zero, []) = .ok (key0, positions0) ∧
          key.str = key0.str := by
  have hzero : Follows (OpticsKey.zero, []) [] [] :=
    ⟨OpticsKey.holds_zero, rfl, List.IsChain.singleton _⟩
  obtain ⟨⟨key, positions⟩, hrun, hkey, -, -⟩ := run_follows hzero hm
  refine ⟨key, positions, hrun, ?_, ?_, fun i hi => ?_, hkey.str, ?_⟩
  · rw [hkey.len]
    exact Nat.le_pred_of_lt hkey.lt
  · have hend := hkey.isStr.2
    rwa [Nat.zero_add, ← hkey.len] at hend
  · rw [hkey.len] at hi
    have hbyte := hkey.isStr.1 i hi
    rw [Nat.zero_add, List.getD_eq_getElem _ _ hi] at hbyte
    intro h0
    exact hkey.zero (h0 ▸ hbyte ▸ List.getElem_mem hi)
  · rintro before op inner rfl hop hinner
    obtain ⟨⟨key0, positions0⟩, hrun0, hkey0, -, -⟩ := run_follows hzero (matched_of_append before hm)
    refine ⟨key0, positions0, hrun0, Subtype.ext ?_⟩
    rw [hkey.str, hkey0.str, texts_append, (Nested.wrap hop hinner .nil).texts_eq]

/-- Two pushes and a pop. -/
theorem key_follows_once : ∃ key positions,
    run [.push nameA, .push nameA, .pop] (OpticsKey.zero, []) = .ok (key, positions) ∧
      key.str.val = [97] := by
  obtain ⟨key, positions, hrun, -, -, -, hstr, -⟩ :=
    key_follows [.push nameA, .push nameA, .pop] trivial
  exact ⟨key, positions, hrun, hstr⟩

end Optics.Utils.Keys
