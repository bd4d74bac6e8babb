import Optics.Lib.Bytes
import Optics.Utils.Formats
import Mathlib.Algebra.GroupWithZero.Nat

/-! # Error messages

`utils/errors.c`: an error is printed into a buffer with one call of `snprintf` for its header and one
for each line of its backtrace. Each call starts where the texts before it would end if nothing had
been cut off, and is given the rest of the buffer as a word, which wraps around once the start is
behind the end.

`strerror_iff` says that the calls stay inside the buffer exactly where the texts fit
(`Fits`); the system calls behind the functions (`Libc`) are parameters. -/

namespace Optics.Utils.Errors

open Optics.Base Optics.Lib.Bytes Optics.Lib.Decimals Optics.Utils.Formats

def opticsErrMsgCap : ℕ := 1024
def opticsErrBacktraceCap : ℕ := 256

/-- `struct optics_error`. -/
structure OpticsError where
  warning : Bool
  file : CStr
  line : ℤ
  errno_ : ℤ
  msg : CStr
  backtrace : List ℕ
  backtraceLen : ℤ
  /-- `msg` is terminated in its array -/
  msg_lt : msg.val.length < opticsErrMsgCap
  backtrace_length : backtrace.length = opticsErrBacktraceCap
  backtraceLen_le : backtraceLen ≤ opticsErrBacktraceCap

/-- What the functions ask the system for: `tid`, `strerror` and `backtrace_symbols`, which gives a
string for each frame. -/
structure Libc where
  tid : UInt64
  strerror : ℤ → CStr
  backtraceSymbols : List ℕ → List CStr
  length_symbols : ∀ frames, (backtraceSymbols frames).length = frames.length

/-! ### The texts -/

/-- `%d` -/
def formatD (n : ℤ) : List UInt8 := if n < 0 then 45 :: decimal n.natAbs else decimal n.natAbs

/-- `"<%lu> %s:%d: %s\n"` and `"<%lu> %s:%d: %s - %s(%d)\n"` -/
def headerText (libc : Libc) (err : OpticsError) : List UInt8 :=
  let head := 60 :: (formatU libc.tid ++ 62 :: 32 :: (err.file.val ++ 58 :: (formatD err.line ++
    58 :: 32 :: err.msg.val)))
  if err.errno_ = 0 then head ++ [10]
  else head ++ 32 :: 45 :: 32 :: ((libc.strerror err.errno_).val ++ 40 :: (formatD err.errno_ ++
    [41, 10]))

/-- `"  {%d} %s\n"` -/
def symbolText (j : ℕ) (symbol : CStr) : List UInt8 :=
  32 :: 32 :: 123 :: (formatD j ++ 125 :: 32 :: (symbol.val ++ [10]))

/-! ### The functions -/

/-- `snprintf` to a position of a buffer: what fits in front of a terminator is written, and the length
of the whole text is returned. -/
def snprintf (dest : Mem) (start size : UInt64) (text : List UInt8) : Mem × ℕ :=
  (if size = 0 then dest else write dest start.toNat (text.take (size.toNat - 1) ++ [0]), text.length)

/-- The buffer, the starts and sizes that `snprintf` has been called with, and `i`. -/
structure Printed where
  dest : Mem
  calls : List (UInt64 × UInt64)
  i : UInt64

/-- `i += snprintf(dest + i, len - i, ...)` -/
def Printed.next (out : Printed) (len : UInt64) (text : List UInt8) : Printed :=
  let (dest, n) := snprintf out.dest out.i (len - out.i) text
  ⟨dest, out.calls ++ [(out.i, len - out.i)], out.i + .ofNat n⟩

/-- The loop over the symbols, from number `j` on. -/
def printSymbols (len : UInt64) : List CStr → ℕ → Printed → Printed
  | [], _, out => out
  | symbol :: symbols, j, out => printSymbols len symbols (j + 1) (out.next len (symbolText j symbol))

/-- The symbols of a backtrace. -/
def symbols (libc : Libc) (err : OpticsError) : List CStr :=
  libc.backtraceSymbols (err.backtrace.take err.backtraceLen.toNat)

/-- `optics_strerror`. -/
def opticsStrerror (libc : Libc) (err : OpticsError) (dest : Mem) (len : UInt64) : Printed :=
  let (dest, n) := snprintf dest 0 len (headerText libc err)
  let out : Printed := ⟨dest, [(0, len)], .ofNat n⟩
  if err.backtraceLen > 0 then printSymbols len (symbols libc err) 0 out else out

/-- `sizeof(buf)` -/
def perrorCap : UInt64 := 128 + .ofNat opticsErrMsgCap + 80 * .ofNat opticsErrBacktraceCap

/-- Where an error is reported to. -/
inductive Report where
  /-- `write(2, buf, len)` -/
  | write (buf : Mem) (len : UInt64)
  /-- `syslog`, as a warning or an error -/
  | syslog (warning : Bool) (buf : Mem)

/-- `optics_perror`, with its buffer. -/
def opticsPerror (libc : Libc) (dumpToSyslog : Bool) (err : OpticsError) (buf : Mem) : Report :=
  let out := opticsStrerror libc err buf perrorCap
  if dumpToSyslog then .syslog err.warning out.dest else .write out.dest out.i

/-! ### What the calls are given -/

/-- The symbol lines of a list of symbols, from number `j` on. -/
def symbolTexts : List CStr → ℕ → List (List UInt8)
  | [], _ => []
  | symbol :: symbols, j => symbolText j symbol :: symbolTexts symbols (j + 1)

/-- The texts of an error. -/
def texts (libc : Libc) (err : OpticsError) : List (List UInt8) :=
  headerText libc err :: if err.backtraceLen > 0 then symbolTexts (symbols libc err) 0 else []

/-- The length of the first texts. -/
def lengthOf (l : List (List UInt8)) (k : ℕ) : ℕ := ((l.take k).map List.length).sum

theorem printSymbols_eq (len : UInt64) : ∀ (symbols : List CStr) (j : ℕ) (out : Printed),
    printSymbols len symbols j out =
      (symbolTexts symbols j).foldl (fun out text => out.next len text) out
  | [], _, _ => rfl
  | _ :: symbols, j, _ => printSymbols_eq len symbols (j + 1) _

/-- **The texts are printed one after the other.** -/
theorem opticsStrerror_eq (libc : Libc) (err : OpticsError) (dest : Mem) (len : UInt64) :
    opticsStrerror libc err dest len =
      (texts libc err).foldl (fun out text => out.next len text) ⟨dest, [], 0⟩ := by
  have hfirst : (⟨dest, [], 0⟩ : Printed).next len (headerText libc err) =
      ⟨(snprintf dest 0 len (headerText libc err)).1, [(0, len)],
        .ofNat (snprintf dest 0 len (headerText libc err)).2⟩ := by
    unfold Printed.next
    dsimp only
    rw [UInt64.sub_zero, UInt64.zero_add]
    rfl
  unfold opticsStrerror texts
  rw [List.foldl_cons, hfirst]
  dsimp only
  split_ifs
  · rw [printSymbols_eq]
  · rfl

/-! ### Staying inside the buffer -/

/-- A call of `snprintf` starts in the buffer or at its end and is given no more than is left. -/
def Inside (len : UInt64) (call : UInt64 × UInt64) : Prop :=
  call.1 ≤ len ∧ call.2.toNat ≤ len.toNat - call.1.toNat

/-- Every call is inside the buffer, and so is what `i` says has been written. -/
def Printed.StaysInside (out : Printed) (len : UInt64) : Prop :=
  (∀ call ∈ out.calls, Inside len call) ∧ out.i ≤ len

/-- The texts fit, one after the other, as far as words can tell. -/
def Fits (l : List (List UInt8)) (len : UInt64) : Prop :=
  ∀ k ≤ l.length, UInt64.ofNat (lengthOf l k) ≤ len

theorem inside_rest {len i : UInt64} : Inside len (i, len - i) ↔ i ≤ len :=
  ⟨And.left, fun h => ⟨h, (UInt64.toNat_sub_of_le len i h).le⟩⟩

theorem lengthOf_zero (l : List (List UInt8)) : lengthOf l 0 = 0 := rfl

theorem lengthOf_succ (text : List UInt8) (l : List (List UInt8)) (k : ℕ) :
    lengthOf (text :: l) (k + 1) = text.length + lengthOf l k := by
  unfold lengthOf
  rw [List.take_succ_cons, List.map_cons, List.sum_cons]

/-- **The calls stay inside** exactly if every text starts inside and the last one ends there. -/
theorem foldl_staysInside (len : UInt64) : ∀ (l : List (List UInt8)) (out : Printed),
    (l.foldl (fun out text => out.next len text) out).StaysInside len ↔
      (∀ call ∈ out.calls, Inside len call) ∧
        ∀ k ≤ l.length, out.i + UInt64.ofNat (lengthOf l k) ≤ len
  | [], out => by
    refine and_congr_right fun _ => ⟨fun h k hk => ?_, fun h => ?_⟩
    · rw [Nat.le_zero.mp hk]
      exact (UInt64.add_zero out.i).symm ▸ h
    · exact (UInt64.add_zero out.i) ▸ h 0 le_rfl
  | text :: l, out => by
    have hcalls : (out.next len text).calls = out.calls ++ [(out.i, len - out.i)] := rfl
    have hi : (out.next len text).i = out.i + .ofNat text.length := rfl
    rw [List.foldl_cons, foldl_staysInside len l, hcalls, hi]
    constructor
    · rintro ⟨hin, hrest⟩
      refine ⟨fun call hc => hin call (List.mem_append_left _ hc), fun k hk => ?_⟩
      cases k with
      | zero =>
        rw [lengthOf_zero]
        have hlast := hin _ (List.mem_append_right _ (List.mem_singleton_self _))
        exact (UInt64.add_zero out.i).symm ▸ inside_rest.mp hlast
      | succ k =>
        have hle := hrest k (Nat.le_of_succ_le_succ hk)
        rwa [lengthOf_succ, UInt64.ofNat_add, ← UInt64.add_assoc]
    · rintro ⟨hin, hall⟩
      refine ⟨fun call hc => ?_, fun k hk => ?_⟩
      · rcases List.mem_append.mp hc with hc | hc
        · exact hin call hc
        · rw [List.mem_singleton.mp hc]
          exact inside_rest.mpr ((UInt64.add_zero out.i) ▸ hall 0 (Nat.zero_le _))
      · have hle := hall (k + 1) (Nat.succ_le_succ hk)
        rwa [lengthOf_succ, UInt64.ofNat_add, ← UInt64.add_assoc] at hle

/-- If all texts together are shorter than `2 ^ 64` the words do not wrap, and the texts fit if they
are no longer than the buffer. -/
theorem fits_iff_of_lt {l : List (List UInt8)} {len : UInt64}
    (hl : (l.map List.length).sum < 2 ^ 64) :
    Fits l len ↔ (l.map List.length).sum ≤ len.toNat := by
  have hall : lengthOf l l.length = (l.map List.length).sum := by
    rw [lengthOf, List.take_length]
  have hpart : ∀ k, lengthOf l k ≤ (l.map List.length).sum := fun k => by
    have hsplit := congrArg List.sum (List.take_append_drop k (l.map List.length))
    rw [List.sum_append] at hsplit
    rw [lengthOf, List.map_take]
    omega
  have hword : ∀ k, UInt64.ofNat (lengthOf l k) ≤ len ↔ lengthOf l k ≤ len.toNat := fun k => by
    rw [UInt64.le_iff_toNat_le, UInt64.toNat_ofNat_of_lt' ((hpart k).trans_lt hl)]
  constructor
  · intro h
    rw [← hall]
    exact (hword _).mp (h l.length le_rfl)
  · intro h k _
    exact (hword k).mpr ((hpart k).trans h)

theorem next_sameOff {out : Printed} {len : UInt64} (h : out.i ≤ len) (text : List UInt8) :
    SameOff out.dest (out.next len text).dest 0 len.toNat := by
  show SameOff out.dest (if len - out.i = 0 then out.dest else _) 0 len.toNat
  split_ifs with h0
  · exact sameOff_refl _ _ _
  · have hsize := UInt64.toNat_sub_of_le len out.i h
    have hle := UInt64.le_iff_toNat_le.mp h
    have hpos : (len - out.i).toNat ≠ 0 := fun hc => h0 (UInt64.toNat_inj.mp hc)
    refine (sameOff_write _ _ _).mono (Nat.zero_le _) ?_
    rw [List.length_append, List.length_take, List.length_singleton]
    omega

/-- **Where the texts fit, the memory behind the buffer stays.** -/
theorem foldl_sameOff (len : UInt64) : ∀ (l : List (List UInt8)) (out : Printed),
    (∀ k ≤ l.length, out.i + UInt64.ofNat (lengthOf l k) ≤ len) →
      SameOff out.dest (l.foldl (fun out text => out.next len text) out).dest 0 len.toNat
  | [], _, _ => sameOff_refl _ _ _
  | text :: l, out, h => by
    have hi : out.i ≤ len := (UInt64.add_zero out.i) ▸ h 0 (Nat.zero_le _)
    refine (next_sameOff hi text).trans (foldl_sameOff len l (out.next len text) fun k hk => ?_)
    have hle := h (k + 1) (Nat.succ_le_succ hk)
    rwa [lengthOf_succ, UInt64.ofNat_add, ← UInt64.add_assoc] at hle

/-! ### Errors -/

section Errors
variable (libc : Libc) (err : OpticsError)

/-- **`optics_strerror`** stays inside its buffer exactly if the texts fit. -/
theorem opticsStrerror_staysInside (dest : Mem) (len : UInt64) :
    (opticsStrerror libc err dest len).StaysInside len ↔ Fits (texts libc err) len := by
  rw [opticsStrerror_eq, foldl_staysInside]
  refine (and_iff_right fun call hc => absurd hc List.not_mem_nil).trans ?_
  refine forall_congr' fun k => imp_congr_right fun _ => ?_
  rw [UInt64.zero_add]

theorem opticsStrerror_sameOff {dest : Mem} {len : UInt64} (h : Fits (texts libc err) len) :
    SameOff dest (opticsStrerror libc err dest len).dest 0 len.toNat := by
  rw [opticsStrerror_eq]
  refine foldl_sameOff len (texts libc err) ⟨dest, [], 0⟩ fun k hk => ?_
  exact (UInt64.zero_add _).symm ▸ h k hk

theorem foldl_i (len : UInt64) : ∀ (l : List (List UInt8)) (out : Printed),
    (l.foldl (fun out text => out.next len text) out).i = out.i + .ofNat (lengthOf l l.length)
  | [], out => (UInt64.add_zero out.i).symm
  | text :: l, out => by
    rw [List.foldl_cons, foldl_i len l, List.length_cons, lengthOf_succ, UInt64.ofNat_add,
      ← UInt64.add_assoc]
    rfl

/-- What is returned is the length of all texts. -/
theorem opticsStrerror_i (dest : Mem) (len : UInt64) : (opticsStrerror libc err dest len).i =
    .ofNat (lengthOf (texts libc err) (texts libc err).length) := by
  rw [opticsStrerror_eq, foldl_i]
  exact UInt64.zero_add _

/-- What is reported lies in the buffer of `optics_perror`. -/
def Report.InBuffer : Report → Prop
  | .write _ len => len ≤ perrorCap
  | .syslog _ _ => True

/-- **`optics_perror`** writes out bytes of its buffer only exactly if it writes to the system log or
the length of the texts, as a word, is at most that of the buffer. -/
theorem opticsPerror_inBuffer (dumpToSyslog : Bool) (buf : Mem) :
    (opticsPerror libc dumpToSyslog err buf).InBuffer ↔ dumpToSyslog = true ∨
      UInt64.ofNat (lengthOf (texts libc err) (texts libc err).length) ≤ perrorCap := by
  unfold opticsPerror
  cases dumpToSyslog with
  | true => exact ⟨fun _ => .inl rfl, fun _ => trivial⟩
  | false =>
    rw [← opticsStrerror_i libc err buf perrorCap]
    exact (or_iff_right Bool.false_ne_true).symm

/-- **Formatting stays inside the buffer** exactly if the header and the lines of the backtrace fit:
then every call of `snprintf` starts inside and is given no more than is left, and what is returned is
at most the length of the buffer. What `optics_perror` writes to the standard error stream lies in its
buffer exactly if the length of all texts, as a word, is at most that of the buffer. -/
theorem strerror_iff :
    (∀ dest len, (opticsStrerror libc err dest len).StaysInside len ↔ Fits (texts libc err) len) ∧
    ∀ dumpToSyslog buf, (opticsPerror libc dumpToSyslog err buf).InBuffer ↔ dumpToSyslog = true ∨
      UInt64.ofNat (lengthOf (texts libc err) (texts libc err).length) ≤ perrorCap :=
  ⟨opticsStrerror_staysInside libc err, opticsPerror_inBuffer libc err⟩

end Errors

/-! ### Texts that do not fit -/

/-- A system where every frame has the same symbol. -/
def sameSymbol (symbol : CStr) : Libc where
  tid := 1
  strerror _ := CStr.empty
  backtraceSymbols frames := frames.map fun _ => symbol
  length_symbols _ := List.length_map _

/-- An error without a message, with some frames. -/
def frames (n : ℕ) (hn : n ≤ opticsErrBacktraceCap) : OpticsError where
  warning := false
  file := nameA
  line := 1
  errno_ := 0
  msg := CStr.empty
  backtrace := List.replicate opticsErrBacktraceCap 0
  backtraceLen := n
  msg_lt := Nat.zero_lt_succ 1023
  backtrace_length := List.length_replicate
  backtraceLen_le := Int.ofNat_le.mpr hn

/-- A symbol of 80 bytes. -/
def longSymbol : CStr :=
  ⟨List.replicate 80 97, fun h => absurd (List.eq_of_mem_replicate h) (by decide)⟩

/-- **Formatting leaves its buffer**: with one frame and 8 bytes the second call of `snprintf` starts
behind the end and is given almost all of the address space; with 256 frames of 80 bytes
`optics_perror` writes out 22684 bytes of a buffer of 21632. -/
theorem strerror_overruns :
    (¬ (opticsStrerror (sameSymbol nameA) (frames 1 (by decide)) (fun _ => 0) 8).StaysInside 8 ∧
      (opticsStrerror (sameSymbol nameA) (frames 1 (by decide)) (fun _ => 0) 8).calls =
        [(0, 8), (10, 18446744073709551614)]) ∧
    ¬ (opticsPerror (sameSymbol longSymbol) false (frames 256 le_rfl) (fun _ => 0)).InBuffer := by
  have hcalls : (opticsStrerror (sameSymbol nameA) (frames 1 (by decide)) (fun _ => 0) 8).calls =
      [(0, 8), (10, 18446744073709551614)] := by decide
  refine ⟨⟨fun h => ?_, hcalls⟩, fun h => ?_⟩
  · have hcall := h.1 (10, 18446744073709551614) (by rw [hcalls]; decide)
    exact absurd hcall.1 (by decide)
  · have hlength : lengthOf (texts (sameSymbol longSymbol) (frames 256 le_rfl))
        (texts (sameSymbol longSymbol) (frames 256 le_rfl)).length = 22684 := by decide +kernel
    have hle := (opticsPerror_inBuffer _ _ _ _).mp h
    rw [hlength] at hle
    exact absurd (hle.resolve_left Bool.false_ne_true) (by decide)

end Optics.Utils.Errors
