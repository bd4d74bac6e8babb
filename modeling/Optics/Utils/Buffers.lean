import Optics.Base
import Optics.Lib.Bytes
import Mathlib.Data.List.GetD

/-! # Buffers

`utils/buffer.c`: a growing array of bytes. A buffer `Holds` a text; each function puts something
behind the text, and a sequence of calls one thing behind the other (`buffer_holds_written`).

Sizes are natural numbers. No `size_t` wraps while at most `2 ^ 63` bytes are reserved
(`bufferReserve_cap_lt`); for more the loop of the source would never end, but an allocation has failed
long before. Texts are too short for `vsnprintf` to return an error. -/

namespace Optics.Utils.Buffers

open Optics.Base Optics.Lib.Bytes

def bufferMinCap : ℕ := 128

/-- `struct buffer`; what `data` has from `cap` on is not allocated. -/
structure Buffer where
  len : ℕ
  cap : ℕ
  data : Mem

/-- `struct buffer buffer = {0}`. -/
def Buffer.zero : Buffer := ⟨0, 0, fun _ => 0⟩

/-- The bytes `data[0]` to `data[len - 1]`. -/
def Buffer.contents (buffer : Buffer) : List UInt8 := (List.range buffer.len).map buffer.data

/-! ### The functions -/

/-- `while (len > cap) cap *= 2`, for a capacity that is not zero. -/
def growCap (len cap : ℕ) : ℕ :=
  if 0 < cap ∧ cap < len then growCap len (cap * 2) else cap
termination_by len - cap

/-- `buffer_reserve`. -/
def bufferReserve (buffer : Buffer) (len : ℕ) : Buffer :=
  if len < buffer.cap then buffer
  else
    let cap := if buffer.cap = 0 then bufferMinCap else buffer.cap
    { buffer with cap := growCap len cap }

/-- Bytes written at a position, within the capacity. -/
def bufferPoke (buffer : Buffer) (pos : ℕ) (bytes : List UInt8) : Outcome Buffer :=
  if pos + bytes.length ≤ buffer.cap then
    .ok { buffer with data := write buffer.data pos bytes }
  else .error .undefined

/-- `buffer_put`. -/
def bufferPut (buffer : Buffer) (c : UInt8) : Outcome Buffer := do
  let buffer := bufferReserve buffer (buffer.len + 1)
  let buffer ← bufferPoke buffer buffer.len [c]
  .ok { buffer with len := buffer.len + 1 }

/-- `buffer_write`. -/
def bufferWrite (buffer : Buffer) (data : List UInt8) : Outcome Buffer := do
  let buffer := bufferReserve buffer (buffer.len + data.length)
  let buffer ← bufferPoke buffer buffer.len data
  .ok { buffer with len := buffer.len + data.length }

/-- `vsnprintf` behind the text, with the text the format gives: as much as fits in front of a
terminator is written, and the length of all of it is returned. -/
def bufferVsnprintf (buffer : Buffer) (avail : ℕ) (text : List UInt8) : Outcome (Buffer × ℕ) := do
  let buffer ← if avail = 0 then .ok buffer
    else bufferPoke buffer buffer.len (text.take (avail - 1) ++ [0])
  .ok (buffer, text.length)

/-- `buffer_printf`, with the text the format gives. -/
def bufferPrintf (buffer : Buffer) (text : List UInt8) : Outcome Buffer := do
  let avail := buffer.cap - buffer.len
  let (buffer, ret) ← bufferVsnprintf buffer avail text
  if ret > 0 ∧ ret + 1 > avail then do
    let buffer := bufferReserve buffer (buffer.len + ret + 1)
    let avail := buffer.cap - buffer.len
    let (buffer, ret) ← bufferVsnprintf buffer avail text
    .ok { buffer with len := buffer.len + ret }
  else .ok { buffer with len := buffer.len + ret }

/-! ### What a buffer holds -/

/-- The text of a buffer. -/
structure Buffer.Holds (buffer : Buffer) (s : List UInt8) : Prop where
  len : buffer.len = s.length
  fits : s.length ≤ buffer.cap
  bytes : ∀ i < s.length, buffer.data i = s.getD i 0

theorem Buffer.holds_zero : Buffer.zero.Holds [] :=
  ⟨rfl, le_rfl, fun i hi => absurd hi (Nat.not_lt_zero i)⟩

theorem Buffer.Holds.contents {buffer : Buffer} {s : List UInt8} (h : buffer.Holds s) :
    buffer.contents = s := by
  unfold Buffer.contents
  refine List.ext_getElem (by simp [h.len]) fun i h1 h2 => ?_
  rw [List.getElem_map, List.getElem_range, h.bytes i h2,
    List.getD_eq_getElem _ _ h2]

theorem growCap_spec (len : ℕ) {cap : ℕ} (hcap : 0 < cap) :
    len ≤ growCap len cap ∧ cap ≤ growCap len cap := by
  induction cap using growCap.induct len with
  | case1 cap h ih =>
    obtain ⟨h1, h2⟩ := ih (by omega)
    rw [growCap, if_pos h]
    exact ⟨h1, by omega⟩
  | case2 cap h =>
    rw [growCap, if_neg h]
    exact ⟨by omega, le_rfl⟩

theorem growCap_lt {len cap : ℕ} (hcap : cap < 2 ^ 64) (hlen : len ≤ 2 ^ 63) :
    growCap len cap < 2 ^ 64 := by
  induction cap using growCap.induct len with
  | case1 cap h ih =>
    rw [growCap, if_pos h]
    exact ih (by omega)
  | case2 cap h =>
    rw [growCap, if_neg h]
    exact hcap

/-- The capacities that the loop goes through fit a word. -/
theorem bufferReserve_cap_lt {buffer : Buffer} {len : ℕ} (hcap : buffer.cap < 2 ^ 64)
    (hlen : len ≤ 2 ^ 63) : (bufferReserve buffer len).cap < 2 ^ 64 := by
  unfold bufferReserve
  by_cases hlt : len < buffer.cap
  · rw [if_pos hlt]
    exact hcap
  · rw [if_neg hlt]
    refine growCap_lt ?_ hlen
    split_ifs with h0
    · decide
    · exact hcap

/-- **A reservation** makes room and keeps the text. -/
theorem bufferReserve_spec {buffer : Buffer} {s : List UInt8} (h : buffer.Holds s) (len : ℕ) :
    (bufferReserve buffer len).Holds s ∧ len ≤ (bufferReserve buffer len).cap := by
  unfold bufferReserve
  by_cases hlt : len < buffer.cap
  · rw [if_pos hlt]
    exact ⟨h, hlt.le⟩
  · rw [if_neg hlt]
    have hfits := h.fits
    have hpos : 0 < (if buffer.cap = 0 then bufferMinCap else buffer.cap) := by
      split_ifs with h0
      · decide
      · omega
    obtain ⟨h1, h2⟩ := growCap_spec len hpos
    refine ⟨⟨h.len, hfits.trans (le_trans ?_ h2), h.bytes⟩, h1⟩
    split_ifs with h0
    · omega
    · exact le_rfl

theorem bufferPoke_spec {buffer : Buffer} {s : List UInt8} (h : buffer.Holds s) {t : List UInt8}
    (hroom : s.length + t.length ≤ buffer.cap) :
    ∃ buffer', bufferPoke buffer buffer.len t = .ok buffer' ∧ buffer'.Holds s ∧
      buffer'.cap = buffer.cap ∧
      ∀ u, u.length ≤ t.length → t.take u.length = u →
        ({ buffer' with len := buffer'.len + u.length } : Buffer).Holds (s ++ u) := by
  have hlen := h.len
  have hold : ∀ i < s.length, write buffer.data buffer.len t i = s.getD i 0 := fun i hi => by
    rw [sameOff_write buffer.data buffer.len t i (by omega)]
    exact h.bytes i hi
  refine ⟨{ buffer with data := write buffer.data buffer.len t }, if_pos (by rw [hlen]; exact hroom),
    ⟨hlen, h.fits, hold⟩, rfl, fun u hu htake => ⟨?_, ?_, fun i hi => ?_⟩⟩
  · rw [List.length_append, ← hlen]
  · rw [List.length_append]
    exact le_trans (by omega) hroom
  · rw [List.length_append] at hi
    rcases Nat.lt_or_ge i s.length with hlt | hge
    · rw [List.getD_append _ _ _ _ hlt]
      exact hold i hlt
    · rw [List.getD_append_right _ _ _ _ hge, ← htake]
      dsimp only
      rw [hlen, write_apply hge (by omega), List.getD_eq_getElem?_getD, List.getD_eq_getElem?_getD,
        List.getElem?_take_of_lt (by omega)]

/-- **A byte** is put behind the text. -/
theorem bufferPut_spec {buffer : Buffer} {s : List UInt8} (h : buffer.Holds s) (c : UInt8) :
    ∃ buffer', bufferPut buffer c = .ok buffer' ∧ buffer'.Holds (s ++ [c]) := by
  obtain ⟨h1, hroom⟩ := bufferReserve_spec h (buffer.len + 1)
  obtain ⟨b, hpoke, -, -, hholds⟩ := bufferPoke_spec h1 (t := [c]) (by rw [← h.len]; exact hroom)
  refine ⟨{ b with len := b.len + 1 }, ?_, hholds [c] le_rfl rfl⟩
  unfold bufferPut
  dsimp only
  rw [hpoke, ok_bind]

/-- **A block** is put behind the text. -/
theorem bufferWrite_spec {buffer : Buffer} {s : List UInt8} (h : buffer.Holds s) (t : List UInt8) :
    ∃ buffer', bufferWrite buffer t = .ok buffer' ∧ buffer'.Holds (s ++ t) := by
  obtain ⟨h1, hroom⟩ := bufferReserve_spec h (buffer.len + t.length)
  obtain ⟨b, hpoke, -, -, hholds⟩ := bufferPoke_spec h1 (t := t) (by rw [← h.len]; exact hroom)
  refine ⟨{ b with len := b.len + t.length }, ?_, hholds t le_rfl (List.take_length ..)⟩
  unfold bufferWrite
  dsimp only
  rw [hpoke, ok_bind]

/-- What a first try and a second one leave: the buffer as it was, with room for the whole text in
front of a terminator, and the text in it. -/
theorem bufferVsnprintf_spec {buffer : Buffer} {s : List UInt8} (h : buffer.Holds s)
    (text : List UInt8) :
    ∃ buffer', bufferVsnprintf buffer (buffer.cap - buffer.len) text = .ok (buffer', text.length) ∧
      buffer'.Holds s ∧ (text = [] ∨ text.length + 1 ≤ buffer.cap - buffer.len →
        ({ buffer' with len := buffer'.len + text.length } : Buffer).Holds (s ++ text)) := by
  have hlen := h.len
  have hfits := h.fits
  unfold bufferVsnprintf
  by_cases h0 : buffer.cap - buffer.len = 0
  · rw [if_pos h0]
    refine ⟨buffer, rfl, h, fun hroom => ?_⟩
    have hnil : text = [] := hroom.resolve_right (by omega)
    subst hnil
    rw [List.append_nil]
    exact ⟨h.len, h.fits, h.bytes⟩
  · rw [if_neg h0]
    have hsize : (text.take (buffer.cap - buffer.len - 1) ++ [0]).length ≤
        buffer.cap - buffer.len := by
      rw [List.length_append, List.length_take, List.length_singleton]
      omega
    obtain ⟨b, hpoke, hb, -, hholds⟩ := bufferPoke_spec h
      (t := text.take (buffer.cap - buffer.len - 1) ++ [0]) (by omega)
    refine ⟨b, by rw [hpoke]; rfl, hb, fun hroom => ?_⟩
    have hle : text.length ≤ buffer.cap - buffer.len - 1 := by
      rcases hroom with rfl | hroom
      · exact Nat.zero_le _
      · omega
    refine hholds text ?_ ?_
    · rw [List.take_of_length_le hle, List.length_append]
      omega
    · rw [List.take_of_length_le hle, List.take_left' rfl]

/-- **A formatted text** is put behind the text, all of it. -/
theorem bufferPrintf_spec {buffer : Buffer} {s : List UInt8} (h : buffer.Holds s)
    (text : List UInt8) :
    ∃ buffer', bufferPrintf buffer text = .ok buffer' ∧ buffer'.Holds (s ++ text) := by
  obtain ⟨b, hfirst, hb, hholds⟩ := bufferVsnprintf_spec h text
  unfold bufferPrintf
  dsimp only
  rw [hfirst, ok_bind]
  dsimp only
  by_cases hgrow : text.length > 0 ∧ text.length + 1 > buffer.cap - buffer.len
  · rw [if_pos hgrow]
    obtain ⟨h1, hroom⟩ := bufferReserve_spec hb (b.len + text.length + 1)
    obtain ⟨b', hsecond, -, hholds'⟩ := bufferVsnprintf_spec h1 text
    have hlen1 : (bufferReserve b (b.len + text.length + 1)).len = b.len :=
      h1.len.trans hb.len.symm
    rw [hsecond, ok_bind]
    exact ⟨_, rfl, hholds' (.inr (by omega))⟩
  · rw [if_neg hgrow]
    refine ⟨_, rfl, hholds ?_⟩
    rcases Nat.eq_zero_or_pos text.length with h0 | hpos
    · exact .inl (List.length_eq_zero_iff.mp h0)
    · exact .inr (by omega)

/-! ### Sequences of calls -/

/-- A call; a formatted one with the text the format gives. -/
inductive Op where
  | reserve (len : ℕ)
  | put (c : UInt8)
  | write (data : List UInt8)
  | printf (text : List UInt8)

/-- What a call puts behind the text. -/
def Op.text : Op → List UInt8
  | .reserve _ => []
  | .put c => [c]
  | .write data => data
  | .printf text => text

/-- A call. -/
def exec (buffer : Buffer) : Op → Outcome Buffer
  | .reserve len => .ok (bufferReserve buffer len)
  | .put c => bufferPut buffer c
  | .write data => bufferWrite buffer data
  | .printf text => bufferPrintf buffer text

/-- One call after the other. -/
def run : List Op → Buffer → Outcome Buffer
  | [], buffer => .ok buffer
  | op :: ops, buffer => do
    let buffer ← exec buffer op
    run ops buffer

theorem exec_spec {buffer : Buffer} {s : List UInt8} (h : buffer.Holds s) (op : Op) :
    ∃ buffer', exec buffer op = .ok buffer' ∧ buffer'.Holds (s ++ op.text) := by
  cases op with
  | reserve len =>
    refine ⟨_, rfl, ?_⟩
    rw [Op.text, List.append_nil]
    exact (bufferReserve_spec h len).1
  | put c => exact bufferPut_spec h c
  | write data => exact bufferWrite_spec h data
  | printf text => exact bufferPrintf_spec h text

theorem run_spec : ∀ (ops : List Op) {buffer : Buffer} {s : List UInt8}, buffer.Holds s →
    ∃ buffer', run ops buffer = .ok buffer' ∧ buffer'.Holds (s ++ ops.flatMap Op.text)
  | [], buffer, s, h => ⟨buffer, rfl, by rwa [List.flatMap_nil, List.append_nil]⟩
  | op :: ops, buffer, s, h => by
    obtain ⟨b, hexec, hb⟩ := exec_spec h op
    obtain ⟨buffer', hrun, hbuffer⟩ := run_spec ops hb
    refine ⟨buffer', ?_, ?_⟩
    · rw [run, hexec, ok_bind, hrun]
    · rwa [List.flatMap_cons, ← List.append_assoc]

/-- **A buffer holds exactly what was written to it.** After any sequence of calls, so in every state
on the way, the length is within the capacity and the bytes in front of it are those of the calls, one
after the other; no byte has been written beyond the capacity it had. -/
theorem buffer_holds_written (ops : List Op) : ∃ buffer,
    run ops Buffer.zero = .ok buffer ∧ buffer.len ≤ buffer.cap ∧
      buffer.contents = ops.flatMap Op.text := by
  obtain ⟨buffer, hrun, h⟩ := run_spec ops Buffer.holds_zero
  rw [List.nil_append] at h
  exact ⟨buffer, hrun, h.len.trans_le h.fits, h.contents⟩

end Optics.Utils.Buffers
