import Optics.LensDist
import Mathlib.Logic.Relation

/-! # The lock of a distribution's slot

Any number of recorders and one reader at work on one slot, in any interleaving of their atomic
steps: the operations on the lock word, the body of a record, the copy and the reset of a read. A
recorder takes the lock; the reader only tests it, and clears the word when it is done. So a recorder
that takes the lock between the reader's test and the reader's unlock shares the slot with it, and
its sample can be wiped out. In a run where none does (`Intrudes`), at most one party is inside its
critical section, nobody clears a word that another party has set, and every sample is in the slot or
has been read (`run_good_iff`). -/

namespace Optics.DistLock

open Optics.Base Optics.LensSlots Optics.Utils.Random Optics.LensDist

/-! ### The steps -/

/-- A recorder, in `lens_dist_record`. -/
inductive Recorder where
  | idle
  /-- in `slock_lock` -/
  | locking (value : Double)
  /-- with the lock -/
  | locked (value : Double)
  /-- with the lock, the value recorded -/
  | recorded

/-- The reader, in `lens_dist_read`. -/
inductive Reader where
  | idle
  /-- the lock was free -/
  | tested
  | copied (samplesLen : UInt64) (samples : List Double)
  | reset (samplesLen : UInt64) (samples : List Double)
  /-- the word cleared, the samples to be merged -/
  | unlocked (samplesLen : UInt64) (samples : List Double)

/-- The slot and the parties. `owner`, `bodies` and `read` are history: the recorder whose
compare-exchange set the lock word, the number of record bodies executed, and the sum of the
`samples_len` of the reads that have returned `optics_ok`. -/
structure State (ι σ : Type) where
  slot : LensDistEpoch
  gen : ι → σ
  recorders : ι → Recorder
  reader : Reader
  owner : Option ι
  bodies : ℕ
  read : ℕ

inductive Event (ι : Type) where
  | call (i : ι)
  | spin (i : ι)
  | take (i : ι)
  | body (i : ι)
  | unlock (i : ι)
  | busy
  | test
  | copy
  | reset
  | readerUnlock
  | return

section Model
variable {ι σ : Type} [DecidableEq ι] (rng : Rng σ)

/-- One atomic step. -/
inductive Step : State ι σ → Event ι → State ι σ → Prop
  /-- a record begins -/
  | call {s : State ι σ} {i : ι} (value : Double) (hi : s.recorders i = .idle) :
      Step s (.call i) { s with recorders := Function.update s.recorders i (.locking value) }
  /-- `slock_lock` finds the word set, or its compare-exchange fails -/
  | spin {s : State ι σ} {i : ι} {value : Double} (hi : s.recorders i = .locking value) :
      Step s (.spin i) s
  /-- `slock_lock` sets the word -/
  | take {s : State ι σ} {i : ι} {value : Double} (hi : s.recorders i = .locking value)
      (h : s.slot.lock = false) :
      Step s (.take i)
        { s with slot := { s.slot with lock := true }, owner := some i
                 recorders := Function.update s.recorders i (.locked value) }
  /-- the body of `lens_dist_record` -/
  | body {s : State ι σ} {i : ι} {value : Double} (hi : s.recorders i = .locked value) :
      Step s (.body i)
        { s with slot := (recordBody rng s.slot value (s.gen i)).1
                 gen := Function.update s.gen i (recordBody rng s.slot value (s.gen i)).2
                 recorders := Function.update s.recorders i .recorded, bodies := s.bodies + 1 }
  /-- `slock_unlock` by a recorder -/
  | unlock {s : State ι σ} {i : ι} (hi : s.recorders i = .recorded) :
      Step s (.unlock i)
        { s with slot := slockUnlock s.slot, owner := none
                 recorders := Function.update s.recorders i .idle }
  /-- `slock_is_locked`: the read returns `optics_busy` -/
  | busy {s : State ι σ} (hr : s.reader = .idle) (h : s.slot.lock = true) : Step s .busy s
  /-- `slock_is_locked`: the read goes on -/
  | test {s : State ι σ} (hr : s.reader = .idle) (h : s.slot.lock = false) :
      Step s .test { s with reader := .tested }
  | copy {s : State ι σ} (hr : s.reader = .tested) :
      Step s .copy { s with reader := .copied (copySlot s.slot).1 (copySlot s.slot).2 }
  | reset {s : State ι σ} {n : UInt64} {l : List Double} (hr : s.reader = .copied n l) :
      Step s .reset { s with slot := resetSlot s.slot, reader := .reset n l }
  /-- `slock_unlock` by the reader -/
  | readerUnlock {s : State ι σ} {n : UInt64} {l : List Double} (hr : s.reader = .reset n l) :
      Step s .readerUnlock
        { s with slot := slockUnlock s.slot, owner := none, reader := .unlocked n l }
  /-- the read returns `optics_ok` -/
  | return {s : State ι σ} {n : UInt64} {l : List Double} (hr : s.reader = .unlocked n l) :
      Step s .return { s with reader := .idle, read := s.read + n.toNat }

/-- A slot just created, nobody at work. -/
structure Start (s : State ι σ) : Prop where
  lock : s.slot.lock = false
  n : s.slot.n = 0
  recorders : ∀ i, s.recorders i = .idle
  reader : s.reader = .idle
  owner : s.owner = none
  bodies : s.bodies = 0
  read : s.read = 0

/-- A step, with the states around it. -/
structure Transition (ι σ : Type) where
  before : State ι σ
  event : Event ι
  after : State ι σ

/-- A run, newest step first. -/
inductive Run : List (Transition ι σ) → State ι σ → Prop
  | start {s : State ι σ} (h : Start s) : Run [] s
  | step {tr : List (Transition ι σ)} {s s' : State ι σ} {ev : Event ι} (h : Run tr s)
      (hs : Step rng s ev s') : Run (⟨s, ev, s'⟩ :: tr) s'

end Model

/-! ### The law -/

section Law
variable {ι σ : Type}

/-- A recorder inside its critical section. -/
def Recorder.Inside : Recorder → Prop
  | .locked _ => True
  | .recorded => True
  | _ => False

/-- The reader inside its critical section. -/
def Reader.Inside : Reader → Prop
  | .tested => True
  | .copied .. => True
  | .reset .. => True
  | _ => False

/-- The samples the reader has taken out of the slot and not returned yet. -/
def Reader.taken : Reader → ℕ
  | .reset n _ => n.toNat
  | .unlocked n _ => n.toNat
  | _ => 0

/-- At most one party is inside. -/
structure Exclusive (s : State ι σ) : Prop where
  recorders : ∀ i j, (s.recorders i).Inside → (s.recorders j).Inside → i = j
  reader : s.reader.Inside → ∀ i, ¬ (s.recorders i).Inside

/-- Who clears the lock word owns it; the reader never does, so there has to be nothing to clear. -/
def ClearsOwn (s : State ι σ) : Event ι → Prop
  | .unlock i => s.owner = some i
  | .readerUnlock => s.owner = none
  | _ => True

/-- The samples read and those in the slot are the records, modulo the width of a `size_t`. -/
structure Conserved (s : State ι σ) : Prop where
  mod : (s.read + s.reader.taken + s.slot.n.toNat) % 2 ^ 64 = s.bodies % 2 ^ 64
  exact : s.bodies < 2 ^ 64 → s.read + s.reader.taken + s.slot.n.toNat = s.bodies

/-- **What every step should keep.** -/
structure Good (t : Transition ι σ) : Prop where
  exclusive : Exclusive t.after
  clears : ClearsOwn t.before t.event
  conserved : Conserved t.after

/-- A recorder takes the lock between the reader's test and the reader's unlock. -/
def Intrudes (t : Transition ι σ) : Prop := t.before.reader.Inside ∧ ∃ i, t.event = .take i

end Law

/-! ### The invariant -/

section Invariant
variable {ι σ : Type} {s s' : State ι σ}

/-- The lock word is set by the recorder that is inside, and while the reader is inside there is
none. -/
structure Inv (s : State ι σ) : Prop where
  lock : s.slot.lock = s.owner.isSome
  owner : ∀ i, (s.recorders i).Inside ↔ s.owner = some i
  apart : s.reader.Inside → s.owner = none
  copied : ∀ n l, s.reader = .copied n l → n = s.slot.n
  total : UInt64.ofNat (s.read + s.reader.taken) + s.slot.n = .ofNat s.bodies
  le : s.read + s.reader.taken + s.slot.n.toNat ≤ s.bodies

theorem Start.inv (h : Start s) : Inv s := by
  refine ⟨?_, fun i => ?_, fun hr => ?_, fun n l hr => ?_, ?_, ?_⟩
  · rw [h.lock, h.owner]
    rfl
  · rw [h.recorders, h.owner]
    exact ⟨fun hc => hc.elim, fun hc => nomatch hc⟩
  · rw [h.reader] at hr
    exact hr.elim
  · rw [h.reader] at hr
    cases hr
  · rw [h.read, h.reader, h.n, h.bodies]
    rfl
  · rw [h.read, h.reader, h.n, h.bodies]
    exact le_rfl

theorem Inv.exclusive (h : Inv s) : Exclusive s := by
  refine ⟨fun i j hi hj => ?_, fun hr i hi => ?_⟩
  · have h1 := (h.owner i).mp hi
    rw [(h.owner j).mp hj] at h1
    exact (Option.some.inj h1).symm
  · have h1 := (h.owner i).mp hi
    rw [h.apart hr] at h1
    cases h1

theorem Inv.owner_none (h : Inv s) (hl : s.slot.lock = false) : s.owner = none := by
  have hlock := h.lock
  rw [hl] at hlock
  exact Option.isNone_iff_eq_none.mp (Option.isSome_eq_false_iff.mp hlock.symm)

theorem Inv.counts (h : Inv s) {r : Reader} (hr : s.reader = r) :
    UInt64.ofNat (s.read + r.taken) + s.slot.n = .ofNat s.bodies ∧
      s.read + r.taken + s.slot.n.toNat ≤ s.bodies :=
  hr ▸ ⟨h.total, h.le⟩

theorem Inv.counted {n : UInt64} (h : Inv s) (hn : n = s.slot.n + 1) :
    UInt64.ofNat (s.read + s.reader.taken) + n = .ofNat (s.bodies + 1) ∧
      s.read + s.reader.taken + n.toNat ≤ s.bodies + 1 := by
  have hle := h.le
  have hmod := Nat.mod_le (s.slot.n.toNat + 1) (2 ^ 64)
  rw [hn]
  constructor
  · rw [← add_assoc, h.total, UInt64.ofNat_add]
    rfl
  · rw [UInt64.toNat_add]
    exact (Nat.add_le_add_left hmod _).trans (by omega)

theorem Inv.conserved (h : Inv s) : Conserved s := by
  have hmod := congrArg UInt64.toNat h.total
  rw [UInt64.toNat_add, UInt64.toNat_ofNat', UInt64.toNat_ofNat', Nat.mod_add_mod] at hmod
  refine ⟨hmod, fun hlt => ?_⟩
  have hle := h.le
  rwa [Nat.mod_eq_of_lt hlt, Nat.mod_eq_of_lt (hle.trans_lt hlt)] at hmod

variable [DecidableEq ι] {rng : Rng σ} {ev : Event ι}

/-- A recorder that stays on its side of the critical section. -/
theorem Inv.moves {i : ι} {r : Recorder} (h : Inv s) (hin : r.Inside ↔ (s.recorders i).Inside)
    (j : ι) : ((Function.update s.recorders i r) j).Inside ↔ s.owner = some j := by
  by_cases hj : j = i
  · subst hj
    rw [Function.update_self, hin]
    exact h.owner j
  · rw [Function.update_of_ne hj]
    exact h.owner j

/-- A recorder that takes the lock or gives it back. -/
theorem Inv.passes {i : ι} {r : Recorder} {o : Option ι} (h : Inv s)
    (hfrom : ∀ j ≠ i, s.owner ≠ some j) (hr : r.Inside ↔ o = some i) (hto : ∀ j ≠ i, o ≠ some j)
    (j : ι) : ((Function.update s.recorders i r) j).Inside ↔ o = some j := by
  by_cases hj : j = i
  · subst hj
    rwa [Function.update_self]
  · rw [Function.update_of_ne hj, h.owner j]
    exact iff_of_false (hfrom j hj) (hto j hj)

/-- **A step that does not intrude** keeps the invariant, and clears no other party's word. -/
theorem Inv.step (h : Inv s) (hs : Step rng s ev s') (hno : ¬ Intrudes ⟨s, ev, s'⟩) :
    Inv s' ∧ ClearsOwn s ev := by
  cases hs with
  | @call i _ hi =>
    exact ⟨⟨h.lock, h.moves (by rw [hi]; rfl), h.apart, h.copied, h.total, h.le⟩, trivial⟩
  | spin hi => exact ⟨h, trivial⟩
  | @take i value hi hl =>
    have hfree := h.owner_none hl
    have howner : ∀ j, ((Function.update s.recorders i (.locked value)) j).Inside ↔
        some i = some j :=
      h.passes (fun j _ hc => by rw [hfree] at hc; cases hc) (iff_of_true trivial rfl)
        fun j hj hc => hj (Option.some.inj hc).symm
    exact ⟨⟨rfl, howner, fun hr => absurd ⟨hr, i, rfl⟩ hno, h.copied, h.total, h.le⟩, trivial⟩
  | @body i value hi =>
    have hown := (h.owner i).mp (by rw [hi]; trivial)
    have hout : ¬ s.reader.Inside := fun hr => by
      have := h.apart hr
      rw [hown] at this
      cases this
    have hn : (recordBody rng s.slot value (s.gen i)).1.n = s.slot.n + 1 := rfl
    obtain ⟨htotal, hle⟩ := h.counted hn
    refine ⟨⟨h.lock, h.moves (by rw [hi]; rfl), h.apart, fun n l hr => ?_, htotal, hle⟩, trivial⟩
    have hr : s.reader = .copied n l := hr
    rw [hr] at hout
    exact absurd trivial hout
  | @unlock i hi =>
    have hown := (h.owner i).mp (by rw [hi]; trivial)
    have howner : ∀ j, ((Function.update s.recorders i .idle) j).Inside ↔ none = some j :=
      h.passes (fun j hj hc => hj (Option.some.inj (hown.symm.trans hc)).symm)
        (iff_of_false id fun hc => (nomatch hc)) fun j _ hc => nomatch hc
    exact ⟨⟨rfl, howner, fun _ => rfl, h.copied, h.total, h.le⟩, hown⟩
  | busy hr hl => exact ⟨h, trivial⟩
  | test hr hl =>
    obtain ⟨ht, hle⟩ := h.counts hr
    exact ⟨⟨h.lock, h.owner, fun _ => h.owner_none hl, fun n l hc => (nomatch hc), ht, hle⟩, trivial⟩
  | copy hr =>
    obtain ⟨ht, hle⟩ := h.counts hr
    refine ⟨⟨h.lock, h.owner, fun _ => h.apart (by rw [hr]; trivial), fun n l hc => ?_, ht, hle⟩,
      trivial⟩
    cases hc
    rfl
  | @reset n l hr =>
    have hn := h.copied n l hr
    obtain ⟨ht, hle⟩ := h.counts hr
    have hfree := h.apart (by rw [hr]; trivial)
    refine ⟨⟨h.lock, h.owner, fun _ => hfree, fun n l hc => (nomatch hc), ?_, ?_⟩, trivial⟩
    · show UInt64.ofNat (s.read + n.toNat) + 0 = .ofNat s.bodies
      rw [hn, add_zero, UInt64.ofNat_add, UInt64.ofNat_toNat]
      exact ht
    · show s.read + n.toNat + 0 ≤ s.bodies
      rw [hn]
      exact hle
  | @readerUnlock n l hr =>
    obtain ⟨ht, hle⟩ := h.counts hr
    have hfree := h.apart (by rw [hr]; trivial)
    refine ⟨⟨rfl, fun j => ?_, fun hc => hc.elim, fun n l hc => (nomatch hc), ht, hle⟩, hfree⟩
    rw [← hfree]
    exact h.owner j
  | @«return» n l hr =>
    obtain ⟨ht, hle⟩ := h.counts hr
    exact ⟨⟨h.lock, h.owner, fun hc => hc.elim, fun n l hc => (nomatch hc), ht, hle⟩, trivial⟩

/-- **A run without intrusions** keeps the invariant. -/
theorem Run.inv {tr : List (Transition ι σ)} (h : Run rng tr s) (hno : ∀ t ∈ tr, ¬ Intrudes t) :
    Inv s ∧ ∀ t ∈ tr, Good t := by
  induction h with
  | start h0 => exact ⟨h0.inv, fun t ht => absurd ht List.not_mem_nil⟩
  | step _ hs ih =>
    obtain ⟨hi, hgood⟩ := ih fun t ht => hno t (List.mem_cons_of_mem _ ht)
    obtain ⟨hi', hclears⟩ := hi.step hs (hno _ List.mem_cons_self)
    refine ⟨hi', fun t ht => ?_⟩
    rcases List.mem_cons.mp ht with rfl | ht
    · exact ⟨hi'.exclusive, hclears, hi'.conserved⟩
    · exact hgood t ht

theorem Intrudes.not_exclusive (hs : Step rng s ev s') (h : Intrudes ⟨s, ev, s'⟩) :
    ¬ Exclusive s' := by
  obtain ⟨hr, i, rfl⟩ := h
  intro hex
  cases hs with
  | take hi hl =>
    refine hex.reader hr i ?_
    show ((Function.update s.recorders i _) i).Inside
    rw [Function.update_self]
    trivial

theorem Run.step_of_mem {tr : List (Transition ι σ)} (h : Run rng tr s) :
    ∀ t ∈ tr, Step rng t.before t.event t.after := by
  induction h with
  | start _ => exact fun t ht => absurd ht List.not_mem_nil
  | step _ hs ih =>
    intro t ht
    rcases List.mem_cons.mp ht with rfl | ht
    · exact hs
    · exact ih t ht

/-- **A run is good if and only if no recorder intrudes.** -/
theorem run_good_iff {tr : List (Transition ι σ)} (h : Run rng tr s) :
    (∀ t ∈ tr, Good t) ↔ ∀ t ∈ tr, ¬ Intrudes t := by
  constructor
  · intro hgood t ht hin
    exact hin.not_exclusive (h.step_of_mem t ht) (hgood t ht).exclusive
  · exact fun hno => (h.inv hno).2

/-! ### Nobody else at work -/

/-- **The steps of a record, with no other step between them, are the function**, for a slot of a
lens. -/
theorem record_alone {epochs : Fin 2 → LensDistEpoch} {e : Fin 2} (hslot : epochs e = s.slot) {i : ι}
    (hi : s.recorders i = .idle) (hl : s.slot.lock = false) (value : Double) :
    ∃ s', Relation.ReflTransGen (fun s s' => ∃ ev, Step rng s ev s') s s' ∧
      s'.recorders = s.recorders ∧
      lensDistRecord rng (.dist epochs) e value (s.gen i) =
        .ok (true, .dist (Function.update epochs e s'.slot), s'.gen i) := by
  refine ⟨_, (((Relation.ReflTransGen.single ⟨_, .call value hi⟩).tail
    ⟨_, .take (Function.update_self ..) hl⟩).tail ⟨_, .body (Function.update_self ..)⟩).tail
      ⟨_, .unlock (Function.update_self ..)⟩, ?_, ?_⟩
  · dsimp only
    rw [Function.update_idem, Function.update_idem, Function.update_idem, ← hi,
      Function.update_eq_self]
  · rw [lensDistRecord_spec (hslot ▸ hl), hslot]
    dsimp only
    rw [Function.update_self]
    rcases hs : s.slot with ⟨lock, n, max, samples⟩
    rw [hs] at hl
    cases hl
    rfl

/-- **The steps of a read, with no other step between them, are the function**: they leave the slot of
the lens as it does, and hand on the samples that it merges into the caller's record. -/
theorem read_alone {epochs : Fin 2 → LensDistEpoch} {e : Fin 2} (hslot : epochs e = s.slot)
    (hr : s.reader = .idle) (hl : s.slot.lock = false) (fpu : Doubles.Fpu) (value : OpticsDist)
    (g : σ) :
    ∃ s' n l, Relation.ReflTransGen (fun s s' => ∃ ev, Step rng s ev s') s s' ∧
      s'.reader = .unlocked n l ∧
      lensDistRead fpu rng (.dist epochs) e value g = (do
        let (value, g) ← (value.mergeMax s.slot.max).mergeSamples fpu rng n l g
        .ok (.ok, value, .dist (Function.update epochs e s'.slot), g)) := by
  refine ⟨_, _, _, (((Relation.ReflTransGen.single ⟨_, .test hr hl⟩).tail ⟨_, .copy rfl⟩).tail
    ⟨_, .reset rfl⟩).tail ⟨_, .readerUnlock rfl⟩, rfl, ?_⟩
  rw [lensDistRead_spec (hslot ▸ hl), hslot]

end Invariant

/-! ### Two runs -/

/-- A slot just created, one recorder. -/
def fresh : State Unit UInt64 :=
  ⟨⟨false, 0, .fin 0, Vector.replicate _ (.fin 0)⟩, fun _ => 1, fun _ => .idle, .idle, none, 0, 0⟩

theorem start_fresh : Start fresh := ⟨rfl, rfl, fun _ => rfl, rfl, rfl, rfl, rfl⟩

/-- A record, then a read that returns it. -/
theorem run_good_iff_apart : ∃ (tr : List (Transition Unit UInt64)) (s : State Unit UInt64),
    Run (xorshift Doubles.rational) tr s ∧ s.read = 1 ∧
      ((∀ t ∈ tr, Good t) ↔ ∀ t ∈ tr, ¬ Intrudes t) := by
  have h0 : Run (xorshift Doubles.rational) [] fresh := .start start_fresh
  have h1 := h0.step (.call (i := ()) (.fin 1) rfl)
  have h2 := h1.step (.take (i := ()) rfl rfl)
  have h3 := h2.step (.body (i := ()) rfl)
  have h4 := h3.step (.unlock (i := ()) rfl)
  have h5 := h4.step (.test rfl rfl)
  have h6 := h5.step (.copy rfl)
  have h7 := h6.step (.reset rfl)
  have h8 := h7.step (.readerUnlock rfl)
  have h9 := h8.step (.return rfl)
  exact ⟨_, _, h9, rfl, run_good_iff h9⟩

/-- The recorder takes the lock after the reader's test: its sample is neither read nor kept. -/
theorem run_not_good : ∃ (tr : List (Transition Unit UInt64)) (s : State Unit UInt64),
    Run (xorshift Doubles.rational) tr s ∧ s.bodies = 1 ∧ s.read = 0 ∧ s.slot.n = 0 ∧
      s.reader.taken = 0 ∧ ¬ ∀ t ∈ tr, Good t := by
  have h0 : Run (xorshift Doubles.rational) [] fresh := .start start_fresh
  have h1 := h0.step (.call (i := ()) (.fin 1) rfl)
  have h2 := h1.step (.test rfl rfl)
  have h3 := h2.step (.copy rfl)
  have h4 := h3.step (.take (i := ()) rfl rfl)
  have h5 := h4.step (.body (i := ()) rfl)
  have h6 := h5.step (.reset rfl)
  have h7 := h6.step (.readerUnlock rfl)
  have h8 := h7.step (.unlock (i := ()) rfl)
  have h9 := h8.step (.return rfl)
  refine ⟨_, _, h9, rfl, rfl, rfl, rfl, fun hgood => ?_⟩
  exact absurd ((hgood _ List.mem_cons_self).conserved.exact (by decide)) (by decide)

end Optics.DistLock
