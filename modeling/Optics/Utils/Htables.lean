import Optics.Base
import Optics.Lib.Probing

/-! # The hash table

`utils/htable.c`: open addressing with a probe window of 8 buckets and no tombstones. A lookup reads
the whole window, so that an empty bucket does not end it; an insertion that finds the window full
doubles the table and starts over. Keys are compared, copied and hashed up to 1024 bytes.

The functions take the hash of a key as a parameter; the one the source uses is `htableHash`. Heap
allocation is taken to succeed. -/

namespace Optics.Utils.Htables

open Optics.Base Optics.Lib.Probing

def htableKeyMaxLen : ℕ := 1024
def probeWindow : ℕ := 8

/-- `struct htable`. -/
structure Htable where
  len : ℕ
  cap : ℕ
  table : List (Bucket CStr ℕ)

/-- `struct htable_ret`. -/
structure HtableRet where
  ok : Bool
  value : ℕ
  deriving DecidableEq, Repr

/-- `(struct htable) {0}`. -/
def Htable.zero : Htable := ⟨0, 0, []⟩

/-- One round of the hash; a `char` is signed. -/
def fnvRound (hash : UInt64) (c : UInt8) : UInt64 :=
  (hash ^^^ c.toInt8.toInt64.toUInt64) * 0x100000001b3

/-- `htable_hash`: FNV-1a. -/
def htableHash (key : CStr) : UInt64 :=
  (key.take htableKeyMaxLen).val.foldl fnvRound 0xcbf29ce484222325

/-- `!strncmp(a, b, htable_key_max_len)`. -/
def sameKey (a b : CStr) : Bool := a.take htableKeyMaxLen = b.take htableKeyMaxLen

section Ops
variable (hash : CStr → UInt64)

/-- `(hash + i) % cap`. -/
def slot (cap : ℕ) (key : CStr) (i : ℕ) : ℕ :=
  (hash (key.take htableKeyMaxLen) + UInt64.ofNat i).toNat % cap

/-- The positions a key may be kept at, in the order they are probed. -/
def window (cap : ℕ) (key : CStr) : List ℕ := (List.range probeWindow).map (slot hash cap key)

/-! ### Resizing -/

/-- `table_put`: into the first empty bucket of the window. -/
def tablePut (table : List (Bucket CStr ℕ)) (cap : ℕ) (key : CStr) (value : ℕ) :
    Option (List (Bucket CStr ℕ)) :=
  match (window hash cap key).find? fun j => (bucketAt table j).key.isNone with
  | some j => some (table.set j ⟨some key, value⟩)
  | none => none

/-- The loop of `htable_resize` over the old buckets. -/
def rehash (newCap : ℕ) :
    List (Bucket CStr ℕ) → List (Bucket CStr ℕ) → Option (List (Bucket CStr ℕ))
  | [], table => some table
  | ⟨none, _⟩ :: rest, table => rehash newCap rest table
  | ⟨some key, value⟩ :: rest, table =>
    match tablePut hash table newCap key value with
    | none => none
    | some table => rehash newCap rest table

/-- `while (new_cap < cap) new_cap *= 2`. -/
def growCap (cap : ℕ) : ℕ → ℕ → Outcome ℕ
  | 0, _ => .error .diverge
  | fuel + 1, newCap => if newCap < cap then growCap cap fuel (w64 (newCap * 2)) else .ok newCap

/-- A capacity doubles 64 times at most before its word is zero. -/
def doublings : ℕ := 65

/-- `htable_resize`, which starts over with twice the capacity if a key finds no bucket. -/
def htableResizeFrom (ht : Htable) : ℕ → ℕ → Outcome Htable
  | 0, _ => .error .diverge
  | fuel + 1, cap =>
    if cap ≤ ht.cap then .ok ht
    else do
      let newCap ← growCap cap doublings (if ht.cap = 0 then 1 else ht.cap)
      match rehash hash newCap ht.table (List.replicate newCap ⟨none, 0⟩) with
      | some table => .ok { ht with cap := newCap, table := table }
      | none => htableResizeFrom ht fuel (w64 (newCap * 2))

def htableResize (ht : Htable) (cap : ℕ) : Outcome Htable := htableResizeFrom hash ht doublings cap

/-- `htable_reserve`. -/
def htableReserve (ht : Htable) (items : ℕ) : Outcome Htable := htableResize hash ht (w64 (items * 4))

/-- `htable_reset`. -/
def htableReset (_ : Htable) : Htable := Htable.zero

/-! ### Operations -/

/-- The first bucket of the window that holds the key. -/
def findKey (ht : Htable) (key : CStr) : Option ℕ :=
  (window hash ht.cap key).find? fun j => ((bucketAt ht.table j).key.map (sameKey · key)).getD false

/-- `htable_get`. -/
def htableGet (ht : Htable) (key : CStr) : Outcome (Htable × HtableRet) := do
  let ht ← htableResize hash ht probeWindow
  match findKey hash ht key with
  | some j => .ok (ht, ⟨true, (bucketAt ht.table j).value⟩)
  | none => .ok (ht, ⟨false, 0⟩)

/-- How the loop of `htable_put` ends: at the key, or past the window with the first empty bucket. -/
inductive Scan where
  | found (j : ℕ)
  | missing (empty : Option ℕ)

/-- The loop of `htable_put`. -/
def putScan (table : List (Bucket CStr ℕ)) (key : CStr) : List ℕ → Option ℕ → Scan
  | [], empty => .missing empty
  | j :: rest, empty =>
    match (bucketAt table j).key with
    | some k => if sameKey k key then .found j else putScan table key rest empty
    | none => putScan table key rest (if empty = none then some j else empty)

/-- `htable_put`, which doubles the table and starts over if the window is full. -/
def htablePutFrom (key : CStr) (value : ℕ) : ℕ → Htable → Outcome (Htable × HtableRet)
  | 0, _ => .error .diverge
  | fuel + 1, ht => do
    let ht ← htableResize hash ht probeWindow
    match putScan ht.table key (window hash ht.cap key) none with
    | .found j => .ok (ht, ⟨false, (bucketAt ht.table j).value⟩)
    | .missing (some j) =>
      .ok (⟨ht.len + 1, ht.cap, ht.table.set j ⟨some (key.take htableKeyMaxLen), value⟩⟩, ⟨true, 0⟩)
    | .missing none => do
      let ht ← htableResize hash ht (w64 (ht.cap * 2))
      htablePutFrom key value fuel ht

def htablePut (ht : Htable) (key : CStr) (value : ℕ) : Outcome (Htable × HtableRet) :=
  htablePutFrom hash key value doublings ht

/-- `htable_xchg`. -/
def htableXchg (ht : Htable) (key : CStr) (value : ℕ) : Outcome (Htable × HtableRet) := do
  let ht ← htableResize hash ht probeWindow
  match findKey hash ht key with
  | some j =>
    let bucket := bucketAt ht.table j
    .ok ({ ht with table := ht.table.set j ⟨bucket.key, value⟩ }, ⟨true, bucket.value⟩)
  | none => .ok (ht, ⟨false, 0⟩)

/-- `htable_del`. -/
def htableDel (ht : Htable) (key : CStr) : Outcome (Htable × HtableRet) := do
  let ht ← htableResize hash ht probeWindow
  match findKey hash ht key with
  | some j =>
    let bucket := bucketAt ht.table j
    .ok (⟨ht.len - 1, ht.cap, ht.table.set j ⟨none, bucket.value⟩⟩, ⟨true, bucket.value⟩)
  | none => .ok (ht, ⟨false, 0⟩)

end Ops

/-- The entries in the order in which `htable_next` leads through them. -/
def htableItems (ht : Htable) : List (CStr × ℕ) :=
  ht.table.filterMap fun bucket => bucket.key.map fun key => (key, bucket.value)

end Optics.Utils.Htables
