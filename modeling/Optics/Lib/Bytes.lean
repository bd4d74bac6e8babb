import Mathlib.Data.List.GetD
import Mathlib.Data.Nat.Basic
import Mathlib.Tactic.Ring
import Mathlib.Tactic.Set
import Mathlib.Tactic.SplitIfs
import Mathlib.Tactic.Use

/-! # Byte-addressed memory

A memory is a function from addresses to bytes. Numbers are loaded and stored little-endian, `k`
bytes at a time; blocks are filled (`fill`) or overwritten with a list of bytes (`write`). Every
write changes its own range only, which is what `SameOff` records: a load whose bytes lie off the
range does not see the write (`load_of_sameOff`). -/

namespace Optics.Lib.Bytes

/-- The contents of a memory: one byte at each address. -/
abbrev Mem := ℕ → UInt8

/-- The number stored little-endian in the `k` bytes at `a`. -/
def load (m : Mem) : ℕ → ℕ → ℕ
  | 0, _ => 0
  | k + 1, a => (m a).toNat + 256 * load m k (a + 1)

/-- Store the low `k` bytes of `v` little-endian at `a`. -/
def store (m : Mem) (k a v : ℕ) : Mem := fun b =>
  if a ≤ b ∧ b < a + k then UInt8.ofNat (v / 256 ^ (b - a)) else m b

/-- Set the `n` bytes at `a` to `x`. -/
def fill (m : Mem) (a : ℕ) (x : UInt8) (n : ℕ) : Mem := fun b =>
  if a ≤ b ∧ b < a + n then x else m b

/-- Overwrite the bytes at `a` with the list `l`. -/
def write (m : Mem) (a : ℕ) (l : List UInt8) : Mem := fun b =>
  if a ≤ b ∧ b < a + l.length then l.getD (b - a) 0 else m b

/-- The two memories agree off the `n` bytes at `a`. -/
def SameOff (m m' : Mem) (a n : ℕ) : Prop := ∀ b, ¬(a ≤ b ∧ b < a + n) → m' b = m b

/-! ### What a write changes -/

theorem sameOff_refl (m : Mem) (a n : ℕ) : SameOff m m a n := fun _ _ => rfl

theorem sameOff_store (m : Mem) (k a v : ℕ) : SameOff m (store m k a v) a k :=
  fun _ hb => if_neg hb

theorem sameOff_fill (m : Mem) (a : ℕ) (x : UInt8) (n : ℕ) : SameOff m (fill m a x n) a n :=
  fun _ hb => if_neg hb

theorem sameOff_write (m : Mem) (a : ℕ) (l : List UInt8) : SameOff m (write m a l) a l.length :=
  fun _ hb => if_neg hb

theorem SameOff.trans {m m' m'' : Mem} {a n : ℕ} (h : SameOff m m' a n) (h' : SameOff m' m'' a n) :
    SameOff m m'' a n := fun b hb => (h' b hb).trans (h b hb)

theorem SameOff.mono {m m' : Mem} {a n a' n' : ℕ} (h : SameOff m m' a n) (ha : a' ≤ a)
    (hn : a + n ≤ a' + n') : SameOff m m' a' n' := by
  intro b hb
  refine h b fun hb' => hb ?_
  omega

theorem load_congr {m m' : Mem} : ∀ {k a : ℕ}, (∀ b, a ≤ b → b < a + k → m' b = m b) →
    load m' k a = load m k a
  | 0, _, _ => rfl
  | k + 1, a, h => by
    have ih : load m' k (a + 1) = load m k (a + 1) :=
      load_congr fun b h1 h2 => h b (by omega) (by omega)
    rw [load, load, ih, h a le_rfl (by omega)]

theorem load_of_sameOff {m m' : Mem} {a n k b : ℕ} (h : SameOff m m' a n)
    (hd : b + k ≤ a ∨ a + n ≤ b) : load m' k b = load m k b := by
  refine load_congr fun c h1 h2 => h c ?_
  omega

/-! ### What a write leaves -/

theorem load_store_part (m : Mem) (n a v : ℕ) : ∀ (k j : ℕ), j + k ≤ n →
    load (store m n a v) k (a + j) = v / 256 ^ j % 256 ^ k
  | 0, _, _ => by simp [load, Nat.mod_one]
  | k + 1, j, h => by
    have ih := load_store_part m n a v k (j + 1) (by omega)
    have hb : (store m n a v (a + j)).toNat = v / 256 ^ j % 256 := by
      unfold store
      rw [if_pos (by omega), Nat.add_sub_cancel_left]
      simp
    rw [load, hb, show a + j + 1 = a + (j + 1) by ring, ih, pow_succ 256 j, ← Nat.div_div_eq_div_mul,
      pow_succ' 256 k, Nat.mod_mul]

/-- **A stored number is loaded back**, up to its width. -/
theorem load_store (m : Mem) (n a v : ℕ) : load (store m n a v) n a = v % 256 ^ n := by
  simpa using load_store_part m n a v n 0 (by omega)

theorem load_lt (m : Mem) : ∀ (k a : ℕ), load m k a < 256 ^ k
  | 0, _ => by simp [load]
  | k + 1, a => by
    have h1 := load_lt m k (a + 1)
    have h2 := (m a).toNat_lt
    rw [load, pow_succ]
    omega

theorem load_zero {m : Mem} : ∀ {k a : ℕ}, (∀ b, a ≤ b → b < a + k → m b = 0) → load m k a = 0
  | 0, _, _ => rfl
  | k + 1, a, h => by
    have ih : load m k (a + 1) = 0 := load_zero fun b h1 h2 => h b (by omega) (by omega)
    rw [load, ih, h a le_rfl (by omega)]
    rfl

theorem fill_apply {m : Mem} {a n b : ℕ} {x : UInt8} (h1 : a ≤ b) (h2 : b < a + n) :
    fill m a x n b = x := if_pos ⟨h1, h2⟩

theorem write_apply {m : Mem} {a b : ℕ} {l : List UInt8} (h1 : a ≤ b) (h2 : b < a + l.length) :
    write m a l b = l.getD (b - a) 0 := if_pos ⟨h1, h2⟩

/-! ### Words -/

/-- Load an 8-byte word. -/
abbrev load64 (m : Mem) (a : ℕ) : ℕ := load m 8 a

/-- Store an 8-byte word. -/
abbrev store64 (m : Mem) (a v : ℕ) : Mem := store m 8 a v

theorem load64_store64 {m : Mem} {a v : ℕ} (h : v < 2 ^ 64) : load64 (store64 m a v) a = v := by
  rw [load64, store64, load_store, Nat.mod_eq_of_lt (by simpa using h)]

theorem load64_lt (m : Mem) (a : ℕ) : load64 m a < 2 ^ 64 := by
  simpa using load_lt m 8 a

/-! ### Strings -/

/-- The bytes at `a` up to the first zero byte, at most `n` of them. -/
def readStr (m : Mem) : ℕ → ℕ → List UInt8
  | 0, _ => []
  | n + 1, a => if m a = 0 then [] else m a :: readStr m n (a + 1)

theorem zero_notMem_readStr (m : Mem) : ∀ (n a : ℕ), (0 : UInt8) ∉ readStr m n a
  | 0, _ => by simp [readStr]
  | n + 1, a => by
    rw [readStr]
    split_ifs with h
    · simp
    · rw [List.mem_cons, not_or]
      exact ⟨fun he => h he.symm, zero_notMem_readStr m n (a + 1)⟩

/-- The bytes at `a` are the string `l` and a terminating zero byte. -/
def IsStr (m : Mem) (a : ℕ) (l : List UInt8) : Prop :=
  (∀ i, i < l.length → m (a + i) = l.getD i 0) ∧ m (a + l.length) = 0

theorem isStr_nil {m : Mem} {a : ℕ} : IsStr m a [] ↔ m a = 0 :=
  ⟨fun h => h.2, fun h => ⟨fun _ hi => absurd hi (Nat.not_lt_zero _), h⟩⟩

theorem isStr_cons {m : Mem} {a : ℕ} {x : UInt8} {l : List UInt8} :
    IsStr m a (x :: l) ↔ m a = x ∧ IsStr m (a + 1) l := by
  have hend : a + (x :: l).length = a + 1 + l.length := by
    rw [List.length_cons]
    omega
  constructor
  · rintro ⟨hbytes, hzero⟩
    refine ⟨hbytes 0 (Nat.succ_pos _), fun i hi => ?_, hend ▸ hzero⟩
    rw [Nat.add_right_comm a 1 i]
    exact hbytes (i + 1) (Nat.succ_lt_succ hi)
  · rintro ⟨hhead, hbytes, hzero⟩
    refine ⟨fun i hi => ?_, hend ▸ hzero⟩
    cases i with
    | zero => exact hhead
    | succ i =>
      rw [← Nat.add_assoc, Nat.add_right_comm a i 1]
      exact hbytes i (Nat.lt_of_succ_lt_succ hi)

theorem isStr_write {m : Mem} {s l : List UInt8} (h : ∀ i, i < s.length → m i = s.getD i 0) :
    IsStr (write m s.length (l ++ [0])) 0 (s ++ l) := by
  refine ⟨fun i hi => ?_, ?_⟩
  · rw [Nat.zero_add]
    rcases Nat.lt_or_ge i s.length with hlt | hge
    · rw [(sameOff_write m s.length (l ++ [0])) i (by omega), h i hlt, List.getD_append _ _ _ _ hlt]
    · rw [List.length_append] at hi
      rw [write_apply hge (by simp; omega), List.getD_append_right _ _ _ _ hge,
        List.getD_append _ _ _ _ (by omega)]
  · rw [Nat.zero_add, List.length_append, write_apply (by omega) (by simp)]
    simp

theorem IsStr.drop {m : Mem} {a p : ℕ} {l : List UInt8} (h : IsStr m a l) (hp : p ≤ l.length) :
    IsStr m (a + p) (l.drop p) := by
  induction p generalizing a l with
  | zero => exact h
  | succ p ih =>
    cases l with
    | nil => exact absurd hp (Nat.not_succ_le_zero p)
    | cons x l =>
      have hnext := ih (isStr_cons.mp h).2 (Nat.le_of_succ_le_succ hp)
      rwa [Nat.add_right_comm] at hnext

/-- **A terminated string is read back.** -/
theorem IsStr.readStr {m : Mem} : ∀ {n a : ℕ} {l : List UInt8}, IsStr m a l → (0 : UInt8) ∉ l →
    readStr m n a = l.take n
  | 0, _, _, _, _ => by simp [Bytes.readStr]
  | n + 1, a, [], h, _ => by
    have h0 : m a = 0 := isStr_nil.mp h
    simp [Bytes.readStr, h0]
  | n + 1, a, x :: l, h, hx => by
    obtain ⟨h0, hl⟩ := isStr_cons.mp h
    rw [List.mem_cons, not_or] at hx
    rw [Bytes.readStr, if_neg (by rw [h0]; exact fun he => hx.1 he.symm), h0, hl.readStr hx.2]
    simp

theorem IsStr.congr {m m' : Mem} {a : ℕ} {l : List UInt8} (h : IsStr m a l)
    (hm : ∀ b, a ≤ b → b < a + (l.length + 1) → m' b = m b) : IsStr m' a l := by
  refine ⟨fun i hi => ?_, ?_⟩
  · rw [hm _ (by omega) (by omega)]; exact h.1 i hi
  · rw [hm _ (by omega) (by omega)]; exact h.2

end Optics.Lib.Bytes
