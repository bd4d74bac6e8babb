import Optics.LensSlots
import Mathlib.Algebra.BigOperators.Group.List.Basic

/-! # Recorders and a poller

Any number of recorders add to the counters and histograms of a process while one poller moves the
epoch on and reads. A recorder first loads the epoch (`optics_epoch`) and later adds to the slot of
the parity it saw; a read exchanges the parts of a slot with 0, one after the other. Any of these
steps can come between any two others. A `Run` keeps the events of its steps, newest first; what was
added and what was read are sums over them.

* `run_conserves`: what the reads have returned and what is left in the slots is what was added.
* `read_exact`: if no recorder is between its two steps when the epoch moves and every lens is
  read once in each round (`Paced`), a read returns exactly what was added in the round before. -/

namespace Optics.Recording

open Optics.Base Optics.Lenses Optics.LensSlots

/-! ### The steps -/

/-- What a recorder calls. -/
inductive Record where
  | counterInc (value : UInt64)
  | histoInc (value : Double)

/-- The call, once the epoch has been loaded. -/
def Record.run (lens : LensData) (epoch : Fin 2) : Record → Outcome (Bool × LensData)
  | .counterInc value => .ok (lensCounterInc lens epoch value)
  | .histoInc value => lensHistoInc lens epoch value

/-- What the call adds, by part. -/
def Record.amount (lens : LensData) : Record → Part → UInt64
  | .counterInc value, p =>
    match lens with
    | .counter _ => if p = .value then value else 0
    | _ => 0
  | .histoInc value, p =>
    match lens with
    | .histo _ buckets => if histoPart buckets value = some p then 1 else 0
    | _ => 0

/-- What a poller calls, with the bounds its histogram has. -/
inductive Read where
  | counter
  | histo (buckets : List UInt64)

/-- The parts a read exchanges, unless it returns `optics_err`. -/
def Read.parts (lens : LensData) : Read → Option (List Part)
  | .counter =>
    match lens with
    | .counter _ => some lens.parts
    | _ => none
  | .histo buckets =>
    match lens with
    | .histo _ bs => if buckets = [] ∨ buckets = bs then some lens.parts else none
    | _ => none

section Model
variable {ι L : Type} [DecidableEq ι] [DecidableEq L]

/-- A recorder: it has loaded the parity of the epoch, or not. -/
inductive Recorder (L : Type) where
  | idle
  | loaded (lens : L) (epoch : Fin 2) (call : Record)

/-- The poller: in a read it has parts to exchange and what it has exchanged so far. -/
inductive Poller (L : Type) where
  | idle
  | reading (lens : L) (epoch : Fin 2) (todo : List Part) (value : Part → UInt64)

structure State (ι L : Type) where
  epoch : ℕ
  data : L → LensData
  recorders : ι → Recorder L
  poller : Poller L

/-- `optics_epoch`. -/
def State.opticsEpoch (s : State ι L) : Fin 2 := ⟨s.epoch % 2, Nat.mod_lt _ Nat.two_pos⟩

/-- What a step does, for its observers. -/
inductive Event (L : Type) where
  | load
  | add (lens : L) (amount : Part → UInt64)
  | inc (left : Fin 2)
  | fail (lens : L)
  | start (lens : L) (epoch : Fin 2)
  | exchange
  | done (lens : L) (value : Part → UInt64)

/-- One step. -/
inductive Step : State ι L → Event L → State ι L → Prop
  /-- a recorder loads the epoch -/
  | load {s : State ι L} {i : ι} {lens : L} {call : Record} (hi : s.recorders i = .idle) :
      Step s .load
        { s with recorders := Function.update s.recorders i (.loaded lens s.opticsEpoch call) }
  /-- a recorder adds to the slot of the epoch it loaded -/
  | add {s : State ι L} {i : ι} {lens : L} {epoch : Fin 2} {call : Record} {r : Bool} {d : LensData}
      (hi : s.recorders i = .loaded lens epoch call)
      (h : call.run (s.data lens) epoch = .ok (r, d)) :
      Step s (.add lens (call.amount (s.data lens)))
        { s with data := Function.update s.data lens d
                 recorders := Function.update s.recorders i .idle }
  /-- `optics_epoch_inc` -/
  | inc {s : State ι L} (hp : s.poller = .idle) :
      Step s (.inc s.opticsEpoch) { s with epoch := w64 (s.epoch + 1) }
  /-- a read returns `optics_err` -/
  | fail {s : State ι L} {lens : L} {call : Read} (hp : s.poller = .idle)
      (h : call.parts (s.data lens) = none) : Step s (.fail lens) s
  /-- a read begins -/
  | start {s : State ι L} {lens : L} {epoch : Fin 2} {call : Read} {ps : List Part}
      (hp : s.poller = .idle) (h : call.parts (s.data lens) = some ps) :
      Step s (.start lens epoch) { s with poller := .reading lens epoch ps 0 }
  /-- a read exchanges a part with 0 -/
  | exchange {s : State ι L} {lens : L} {epoch : Fin 2} {p : Part} {ps : List Part}
      {value : Part → UInt64} (hp : s.poller = .reading lens epoch (p :: ps) value) :
      Step s .exchange
        { s with data := Function.update s.data lens ((s.data lens).setSlot epoch p 0)
                 poller := .reading lens epoch ps
                  (Function.update value p (value p + (s.data lens).slot epoch p)) }
  /-- a read returns -/
  | done {s : State ι L} {lens : L} {epoch : Fin 2} {value : Part → UInt64}
      (hp : s.poller = .reading lens epoch [] value) :
      Step s (.done lens value) { s with poller := .idle }

/-- Lenses just allocated, nobody at work. -/
structure Start (s : State ι L) : Prop where
  recorders : ∀ i, s.recorders i = .idle
  poller : s.poller = .idle
  zero : ∀ lens e p, (s.data lens).slot e p = 0

/-- A run with its events, newest first. -/
inductive Run : List (Event L) → State ι L → Prop
  | start {s : State ι L} (h : Start s) : Run [] s
  | step {tr : List (Event L)} {s s' : State ι L} {ev : Event L} (h : Run tr s)
      (hs : Step s ev s') : Run (ev :: tr) s'

/-! ### What was added and what was read -/

/-- What an event adds to a part of a lens. -/
def Event.added (lens : L) (p : Part) : Event L → UInt64
  | .add l amount => if l = lens then amount p else 0
  | _ => 0

/-- What a read that an event ends has returned. -/
def Event.returned (lens : L) (p : Part) : Event L → UInt64
  | .done l value => if l = lens then value p else 0
  | _ => 0

/-- The sum of the increments whose add has been executed. -/
def added (tr : List (Event L)) (lens : L) (p : Part) : UInt64 :=
  (tr.map (Event.added lens p)).sum

/-- The sum of the values reads have returned. -/
def returned (tr : List (Event L)) (lens : L) (p : Part) : UInt64 :=
  (tr.map (Event.returned lens p)).sum

/-- What the read under way has exchanged. -/
def State.pending (s : State ι L) (lens : L) (p : Part) : UInt64 :=
  match s.poller with
  | .idle => 0
  | .reading l _ _ value => if l = lens then value p else 0

theorem added_cons (ev : Event L) (tr : List (Event L)) (lens : L) (p : Part) :
    added (ev :: tr) lens p = ev.added lens p + added tr lens p := by
  simp [added]

theorem returned_cons (ev : Event L) (tr : List (Event L)) (lens : L) (p : Part) :
    returned (ev :: tr) lens p = ev.returned lens p + returned tr lens p := by
  simp [returned]

end Model

/-- **What a record does to the slots.** -/
theorem Record.run_spec {call : Record} {lens d : LensData} {e : Fin 2} {r : Bool}
    (h : call.run lens e = .ok (r, d)) : d.parts = lens.parts ∧ ∀ e' p,
      d.slot e' p = lens.slot e' p + if e' = e then call.amount lens p else 0 := by
  have key : ∀ (v : UInt64) {p0 : Part}, p0 ∈ lens.parts → d = lens.fetchAdd e p0 v →
      (∀ p, call.amount lens p = if p = p0 then v else 0) → d.parts = lens.parts ∧ ∀ e' p,
        d.slot e' p = lens.slot e' p + if e' = e then call.amount lens p else 0 := by
    rintro v p0 hp0 rfl ham
    refine ⟨lens.parts_setSlot e p0 _, fun e' p => ?_⟩
    rw [LensData.fetchAdd, LensData.slot_setSlot hp0, ham]
    by_cases h1 : e' = e
    · by_cases h2 : p = p0
      · simp [h1, h2]
      · simp [h1, h2]
    · simp [h1]
  have nothing : d = lens → (∀ p, call.amount lens p = 0) → d.parts = lens.parts ∧ ∀ e' p,
      d.slot e' p = lens.slot e' p + if e' = e then call.amount lens p else 0 := by
    rintro rfl ham
    refine ⟨rfl, fun e' p => ?_⟩
    rw [ham]
    simp
  cases call with
  | counterInc value =>
    have hd : lensCounterInc lens e value = (r, d) := Except.ok.inj h
    cases lens with
    | counter v => exact key value List.mem_cons_self (Prod.mk.inj hd).2.symm fun p => rfl
    | _ => exact nothing (Prod.mk.inj hd).2.symm fun p => rfl
  | histoInc value =>
    have hd : lensHistoInc lens e value = .ok (r, d) := h
    cases lens with
    | histo epochs buckets =>
      unfold lensHistoInc at hd
      dsimp only at hd
      rcases hpart : histoPart buckets value with _ | p0
      · rw [hpart] at hd
        cases hd
      · rw [hpart] at hd
        have hd := Prod.mk.inj (Except.ok.inj hd)
        refine key 1 (histoPart_mem hpart epochs) hd.2.symm fun p => ?_
        simp only [Record.amount, hpart, Option.some.injEq, eq_comm]
    | _ => exact nothing (Prod.mk.inj (Except.ok.inj hd)).2.symm fun p => rfl

theorem Record.amount_of_notMem (call : Record) {lens : LensData} {p : Part} (hp : p ∉ lens.parts) :
    call.amount lens p = 0 := by
  cases call with
  | counterInc value =>
    cases lens with
    | counter _ => exact if_neg fun (hc : p = .value) => hp (hc ▸ List.mem_cons_self)
    | _ => rfl
  | histoInc value =>
    cases lens with
    | histo epochs _ => exact if_neg fun hc => hp (histoPart_mem hc epochs)
    | _ => rfl

/-- A read that begins exchanges the parts in use. -/
theorem Read.parts_eq {call : Read} {lens : LensData} {ps : List Part}
    (h : call.parts lens = some ps) : ps = lens.parts := by
  cases call with
  | counter =>
    cases lens <;> simp_all [Read.parts]
  | histo buckets =>
    cases lens with
    | histo epochs bs =>
      unfold Read.parts at h
      dsimp only at h
      split_ifs at h
      cases h
      rfl
    | _ => cases h

/-- A read returns `optics_err` exactly where it exchanges nothing; it leaves everything as it was. -/
theorem lensCounterRead_err {lens : LensData} {e : Fin 2} {v : UInt64} :
    (Read.parts lens .counter = none ↔ (lensCounterRead lens e v).1 = .err) ∧
      ((lensCounterRead lens e v).1 = .err → (lensCounterRead lens e v).2 = (v, lens)) := by
  cases lens <;> simp [Read.parts, lensCounterRead]

theorem lensHistoRead_err {lens : LensData} {e : Fin 2} {v : OpticsHisto} :
    (Read.parts lens (.histo v.buckets) = none ↔ (lensHistoRead lens e v).1 = .err) ∧
      ((lensHistoRead lens e v).1 = .err → (lensHistoRead lens e v).2 = (v, lens)) := by
  cases lens with
  | histo epochs bs =>
    unfold Read.parts lensHistoRead
    dsimp only
    by_cases h1 : v.buckets = []
    · simp [h1]
    · by_cases h2 : v.buckets = bs
      · rw [if_neg h1]
        simp [h2]
      · simp [h1, h2]
  | _ => simp [Read.parts, lensHistoRead]

/-! ### A read alone -/

/-- What the function returns, and the lens it leaves, where the exchanges have returned `v`. -/
def Read.Returns (lens : LensData) (e : Fin 2) (v : Part → UInt64) (d : LensData) : Read → Prop
  | .counter => ∀ value, lensCounterRead lens e value = (.ok, value + v .value, d)
  | .histo buckets => ∀ value : OpticsHisto, value.buckets = buckets →
    ∃ value', lensHistoRead lens e value = (.ok, value', d) ∧
      ∀ p, value'.get p = value.get p + v p

theorem returns_of_exchanged {lens : LensData} {call : Read} {e : Fin 2} {v : Part → UInt64}
    (h : call.parts lens = some lens.parts)
    (hv : ∀ p, v p = if p ∈ lens.parts then lens.slot e p else 0) :
    call.Returns lens e v (lens.clear e lens.parts) := by
  cases call with
  | counter =>
    cases lens with
    | counter c =>
      have hpart : Part.value ∈ (LensData.counter c).parts := List.mem_cons_self
      intro value
      rw [hv, if_pos hpart]
      rfl
    | _ => cases h
  | histo buckets =>
    cases lens with
    | histo epochs bs =>
      rintro value rfl
      unfold Read.parts at h
      dsimp only at h
      split_ifs at h with hbounds
      obtain ⟨value', hread, -, hget⟩ := lensHistoRead_spec hbounds e
      exact ⟨value', hread, fun p => by rw [hget, hv]⟩
    | _ => cases h

section Alone
variable {ι L : Type} [DecidableEq ι] [DecidableEq L]

theorem exchanges_alone {lens : L} {e : Fin 2} {ps : List Part} {s : State ι L} {v : Part → UInt64}
    (hp : s.poller = .reading lens e ps v) (hps : ∀ p ∈ ps, p ∈ (s.data lens).parts)
    (hnd : ps.Nodup) : ∃ v', Relation.ReflTransGen (fun a b => Step a .exchange b) s
      { s with data := Function.update s.data lens ((s.data lens).clear e ps)
               poller := .reading lens e [] v' } ∧
      ∀ p, v' p = v p + if p ∈ ps then (s.data lens).slot e p else 0 := by
  induction ps generalizing s v with
  | nil =>
    refine ⟨v, ?_, fun p => by simp⟩
    rw [← hp]
    simp only [LensData.clear, List.foldl_nil, Function.update_eq_self]
    exact .refl
  | cons p0 ps ih =>
    have hstep := Step.exchange hp
    obtain ⟨hnot, hnd'⟩ := List.nodup_cons.mp hnd
    have hps' : ∀ p ∈ ps, p ∈ (Function.update s.data lens ((s.data lens).setSlot e p0 0)
        lens).parts := fun p h => by
      rw [Function.update_self, LensData.parts_setSlot]
      exact hps p (List.mem_cons_of_mem _ h)
    obtain ⟨v', hrun, hv'⟩ := ih (s := { s with
      data := Function.update s.data lens ((s.data lens).setSlot e p0 0)
      poller := .reading lens e ps (Function.update v p0 (v p0 + (s.data lens).slot e p0)) })
      rfl hps' hnd'
    simp only [Function.update_self, Function.update_idem] at hrun hv'
    refine ⟨v', .head hstep hrun, fun p => ?_⟩
    rw [hv', LensData.slot_setSlot (hps p0 List.mem_cons_self)]
    by_cases h : p = p0
    · subst h
      simp [hnot]
    · simp [h]

/-- **The steps of a read, with no other step between them, are the function**: it returns what they
have exchanged added to the caller's value, and leaves the lens as they do. -/
theorem read_alone {s : State ι L} {lens : L} {call : Read} {ps : List Part}
    (hp : s.poller = .idle) (h : call.parts (s.data lens) = some ps) (e : Fin 2) :
    ∃ s₁ s₂ v d, Step s (.start lens e) s₁ ∧
      Relation.ReflTransGen (fun a b => Step a .exchange b) s₁ s₂ ∧
      Step s₂ (.done lens v) { s with data := Function.update s.data lens d } ∧
      call.Returns (s.data lens) e v d := by
  have hps := Read.parts_eq h
  subst hps
  obtain ⟨v, hrun, hv⟩ := exchanges_alone (s := { s with
    poller := .reading lens e (s.data lens).parts 0 }) rfl (fun p h => h) (LensData.parts_nodup _)
  have hdone := Step.done (s := { s with
    data := Function.update s.data lens ((s.data lens).clear e (s.data lens).parts)
    poller := .reading lens e [] v }) rfl
  rw [← hp] at hdone
  refine ⟨_, _, v, _, .start hp h, hrun, hdone, returns_of_exchanged h fun p => ?_⟩
  rw [hv]
  exact zero_add _

end Alone

/-! ### Nothing is lost or counted twice -/

section Sum
variable {ι L : Type} [DecidableEq ι] [DecidableEq L] {tr : List (Event L)} {s s' : State ι L}

/-- The read under way has only parts in use to exchange. -/
def TodoInUse (s : State ι L) : Prop :=
  ∀ lens e ps value, s.poller = .reading lens e ps value → ∀ p ∈ ps, p ∈ (s.data lens).parts

theorem parity_cases (e : Fin 2) : e = 0 ∨ e = 1 := by
  revert e
  decide

/-- Both slots of a lens. -/
def slotSum (d : LensData) (p : Part) : UInt64 := d.slot 0 p + d.slot 1 p

theorem total_record {call : Record} {lens d : LensData} {e : Fin 2} {r : Bool}
    (h : call.run lens e = .ok (r, d)) (p : Part) :
    slotSum d p = slotSum lens p + call.amount lens p := by
  have hd := (Record.run_spec h).2
  unfold slotSum
  rw [hd, hd]
  rcases parity_cases e with rfl | rfl
  · simp
    abel
  · simp
    abel

theorem total_clear {d : LensData} {p0 : Part} (hp : p0 ∈ d.parts) (e : Fin 2) (p : Part) :
    slotSum (d.setSlot e p0 0) p + (if p = p0 then d.slot e p else 0) =
      slotSum d p := by
  unfold slotSum
  rw [LensData.slot_setSlot hp, LensData.slot_setSlot hp]
  by_cases h : p = p0
  · rcases parity_cases e with rfl | rfl
    · simp [h]
      abel
    · simp [h]
  · simp [h]

theorem todoInUse_step {ev : Event L} (h : TodoInUse s) (hs : Step s ev s') : TodoInUse s' := by
  cases hs with
  | load hi => exact h
  | @add i lens epoch call r d hi hrun =>
    intro l e ps value hp p hps
    have hin := h l e ps value hp p hps
    by_cases hl : l = lens
    · subst hl
      simp only [Function.update_self]
      rw [(Record.run_spec hrun).1]
      exact hin
    · simp only [Function.update_of_ne hl]
      exact hin
  | inc hp => exact h
  | fail hp hf => exact h
  | @start lens epoch call ps hp hstart =>
    intro l e ps' value hp' p hps
    cases hp'
    rw [← Read.parts_eq hstart]
    exact hps
  | @exchange lens epoch p0 ps0 value0 hp =>
    intro l e ps' value hp' p hps
    cases hp'
    simp only [Function.update_self, LensData.parts_setSlot]
    exact h lens epoch _ _ hp p (List.mem_cons_of_mem _ hps)
  | done hp =>
    intro l e ps' value hp'
    cases hp'

/-- **No increment is lost or counted twice**, however late it comes. -/
theorem sum_step {ev : Event L} (ht : TodoInUse s) (hs : Step s ev s') (lens : L) (p : Part) :
    ev.returned lens p + s'.pending lens p + slotSum (s'.data lens) p =
      s.pending lens p + slotSum (s.data lens) p + ev.added lens p := by
  cases hs with
  | load hi => simp [Event.returned, Event.added, State.pending]
  | @add i l epoch call r d hi hrun =>
    have hpend : State.pending { s with
        data := Function.update s.data l d
        recorders := Function.update s.recorders i .idle } lens p = s.pending lens p := rfl
    rw [hpend]
    by_cases hl : l = lens
    · subst hl
      simp only [Event.returned, Event.added, Function.update_self, if_true]
      rw [total_record hrun]
      abel
    · simp only [Event.returned, Event.added, if_neg hl, Function.update_of_ne (Ne.symm hl)]
      abel
  | inc hp => simp [Event.returned, Event.added, State.pending]
  | fail hp hf => simp [Event.returned, Event.added]
  | start hp hstart => simp [Event.returned, Event.added, State.pending, hp]
  | @exchange l epoch p0 ps value hp =>
    have hin := ht l epoch _ _ hp p0 List.mem_cons_self
    simp only [Event.returned, Event.added, State.pending, hp]
    by_cases hl : l = lens
    · subst hl
      rw [if_pos rfl, if_pos rfl, Function.update_self, ← total_clear hin epoch p]
      by_cases h : p = p0
      · subst h
        rw [Function.update_self, if_pos rfl]
        abel
      · rw [Function.update_of_ne h, if_neg h]
        abel
    · rw [if_neg hl, if_neg hl, Function.update_of_ne (Ne.symm hl)]
      abel
  | @done l epoch value hp =>
    simp only [Event.returned, Event.added, State.pending, hp]
    abel

theorem todoInUse_run (h : Run tr s) : TodoInUse s := by
  induction h with
  | start h0 =>
    intro l e ps value hp
    rw [h0.poller] at hp
    cases hp
  | step _ hs ih => exact todoInUse_step ih hs

/-- **The conservation law.** In every run, for every lens and every part of its slots: what the reads
have returned, what the read under way holds and what the two slots contain sum up to what was
added. -/
theorem run_conserves (h : Run tr s) (lens : L) (p : Part) :
    returned tr lens p + s.pending lens p + ((s.data lens).slot 0 p + (s.data lens).slot 1 p) =
      added tr lens p := by
  induction h with
  | start h0 => simp [returned, added, State.pending, h0.poller, h0.zero]
  | @step tr s s' ev hrun hs ih =>
    have hstep := sum_step (todoInUse_run hrun) hs lens p
    unfold slotSum at hstep
    rw [returned_cons, added_cons, ← ih]
    calc ev.returned lens p + returned tr lens p + s'.pending lens p +
          ((s'.data lens).slot 0 p + (s'.data lens).slot 1 p)
        = returned tr lens p + (ev.returned lens p + s'.pending lens p +
          ((s'.data lens).slot 0 p + (s'.data lens).slot 1 p)) := by abel
      _ = _ := by
        rw [hstep]
        abel

end Sum

/-! ### Rounds -/

section Events
variable {L : Type}

def Event.isInc : Event L → Bool
  | .inc _ => true
  | _ => false

/-- The events since the epoch was last moved. -/
def sinceInc : List (Event L) → List (Event L)
  | [] => []
  | ev :: tr => if ev.isInc then [] else ev :: sinceInc tr

/-- The events before the epoch was last moved. -/
def beforeInc : List (Event L) → List (Event L)
  | [] => []
  | ev :: tr => if ev.isInc then tr else beforeInc tr

/-- The slot the last `optics_epoch_inc` returned. -/
def leftEpoch : List (Event L) → Option (Fin 2)
  | [] => none
  | .inc e :: _ => some e
  | _ :: tr => leftEpoch tr

/-- The events between the last two times the epoch was moved. -/
def lastRound (tr : List (Event L)) : List (Event L) := sinceInc (beforeInc tr)

theorem leftEpoch_cons {ev : Event L} (h : ev.isInc = false) (tr : List (Event L)) :
    leftEpoch (ev :: tr) = leftEpoch tr := by
  cases ev <;> first | rfl | cases h

theorem lastRound_cons {ev : Event L} (h : ev.isInc = false) (tr : List (Event L)) :
    lastRound (ev :: tr) = lastRound tr := by
  show sinceInc (if ev.isInc then tr else beforeInc tr) = _
  rw [h]
  rfl

theorem sinceInc_cons {ev : Event L} (h : ev.isInc = false) (tr : List (Event L)) :
    sinceInc (ev :: tr) = ev :: sinceInc tr := by
  show (if ev.isInc then [] else ev :: sinceInc tr) = _
  rw [h]
  rfl

theorem opticsEpoch_inc {ι : Type} (s : State ι L) :
    State.opticsEpoch { s with epoch := w64 (s.epoch + 1) } = s.opticsEpoch + 1 := by
  have h : w64 (s.epoch + 1) % 2 = (s.epoch % 2 + 1) % 2 := by
    unfold w64
    omega
  exact Fin.ext (by simpa [State.opticsEpoch, Fin.val_add] using h)

end Events

section Rounds
variable {ι L : Type} [DecidableEq L]

/-- The discipline for one lens. When the epoch moves, no recorder is between its two steps on the
lens and the lens has been read in this round; it is read at most once in a round, from the slot
that was left. -/
def Paced (lens : L) (tr : List (Event L)) (s : State ι L) : Event L → Prop
  | .inc _ => (∀ i e call, s.recorders i ≠ .loaded lens e call) ∧
      (leftEpoch tr ≠ none → ∃ v, .done lens v ∈ sinceInc tr)
  | .start l e => l = lens → leftEpoch tr = some e ∧ ∀ e', .start lens e' ∉ sinceInc tr
  | _ => True

/-- A run that keeps the discipline. -/
inductive PacedRun [DecidableEq ι] (lens : L) : List (Event L) → State ι L → Prop
  | start {s : State ι L} (h : Start s) : PacedRun lens [] s
  | step {tr : List (Event L)} {s s' : State ι L} {ev : Event L} (h : PacedRun lens tr s)
      (hs : Step s ev s') (hp : Paced lens tr s ev) : PacedRun lens (ev :: tr) s'

/-- The slot that was left, as it stands in the round. -/
inductive Left (lens : L) (tr : List (Event L)) (s : State ι L) : Prop
  /-- the epoch has never moved -/
  | fresh (hl : leftEpoch tr = none) (hp : ∀ e ps v, s.poller ≠ .reading lens e ps v)
      (hz : ∀ p, (s.data lens).slot (s.opticsEpoch + 1) p = 0)
  /-- the lens has not been read in this round -/
  | unread (hl : leftEpoch tr = some (s.opticsEpoch + 1)) (hd : ∀ v, .done lens v ∉ sinceInc tr)
      (hp : ∀ e ps v, s.poller ≠ .reading lens e ps v)
      (hv : ∀ p, (s.data lens).slot (s.opticsEpoch + 1) p = added (lastRound tr) lens p)
  /-- it is being read -/
  | reading (ps : List Part) (v : Part → UInt64) (hl : leftEpoch tr = some (s.opticsEpoch + 1))
      (hd : ∀ v, .done lens v ∉ sinceInc tr) (hst : ∃ e, .start lens e ∈ sinceInc tr)
      (hp : s.poller = .reading lens (s.opticsEpoch + 1) ps v) (hnd : ps.Nodup)
      (htodo : ∀ p ∈ ps, (s.data lens).slot (s.opticsEpoch + 1) p = added (lastRound tr) lens p ∧
        v p = 0)
      (hdone : ∀ p, p ∉ ps → v p = added (lastRound tr) lens p ∧
        (s.data lens).slot (s.opticsEpoch + 1) p = 0)
  /-- it has been read -/
  | read (hl : leftEpoch tr = some (s.opticsEpoch + 1)) (hst : ∃ e, .start lens e ∈ sinceInc tr)
      (hp : ∀ e ps v, s.poller ≠ .reading lens e ps v)
      (hz : ∀ p, (s.data lens).slot (s.opticsEpoch + 1) p = 0)

/-- The invariant of a disciplined run. -/
structure RoundInv (lens : L) (tr : List (Event L)) (s : State ι L) : Prop where
  recorders : ∀ i e call, s.recorders i = .loaded lens e call → e = s.opticsEpoch
  unused : ∀ e p, p ∉ (s.data lens).parts → (s.data lens).slot e p = 0
  current : ∀ p, (s.data lens).slot s.opticsEpoch p = added (sinceInc tr) lens p
  left : Left lens tr s

variable {lens : L} {tr : List (Event L)} {s s' : State ι L} {ev : Event L}

theorem Left.keep (h : Left lens tr s) (hinc : ev.isInc = false)
    (hdone : ∀ v, ev ≠ .done lens v) (he : s'.opticsEpoch = s.opticsEpoch)
    (hslot : ∀ p, (s'.data lens).slot (s.opticsEpoch + 1) p =
      (s.data lens).slot (s.opticsEpoch + 1) p)
    (hpoll : ∀ e ps v, s'.poller = .reading lens e ps v ↔ s.poller = .reading lens e ps v) :
    Left lens (ev :: tr) s' := by
  have hl := leftEpoch_cons hinc tr
  have hr := lastRound_cons hinc tr
  have hs := sinceInc_cons hinc tr
  have hd' : (∀ v, .done lens v ∉ sinceInc tr) → ∀ v, .done lens v ∉ sinceInc (ev :: tr) := by
    intro hd v hmem
    rw [hs] at hmem
    rcases List.mem_cons.mp hmem with h | h
    · exact hdone v h.symm
    · exact hd v h
  have hst' : (∃ e, .start lens e ∈ sinceInc tr) → ∃ e, .start lens e ∈ sinceInc (ev :: tr) := by
    rintro ⟨e, he⟩
    exact ⟨e, by rw [hs]; exact List.mem_cons_of_mem _ he⟩
  have hp' : (∀ e ps v, s.poller ≠ .reading lens e ps v) →
      ∀ e ps v, s'.poller ≠ .reading lens e ps v := fun hp e ps v h => hp e ps v ((hpoll e ps v).mp h)
  cases h with
  | fresh h1 h2 h3 =>
    exact .fresh (hl.trans h1) (hp' h2) fun p => by rw [he, hslot, h3]
  | unread h1 h2 h3 h4 =>
    exact .unread (by rw [hl, he, h1]) (hd' h2) (hp' h3) fun p => by rw [he, hslot, h4, hr]
  | reading ps v h1 h2 h3 h4 h5 h6 h7 =>
    refine .reading ps v (by rw [hl, he, h1]) (hd' h2) (hst' h3)
      (by rw [he]; exact (hpoll _ _ _).mpr h4) h5 (fun p hp => ?_) fun p hp => ?_
    · rw [he, hslot, hr]
      exact h6 p hp
    · rw [he, hslot, hr]
      exact h7 p hp
  | read h1 h2 h3 h4 =>
    exact .read (by rw [hl, he, h1]) (hst' h2) (hp' h3) fun p => by rw [he, hslot, h4]

theorem added_sinceInc_cons (hinc : ev.isInc = false) (tr : List (Event L)) (lens : L) (p : Part) :
    added (sinceInc (ev :: tr)) lens p = ev.added lens p + added (sinceInc tr) lens p := by
  rw [sinceInc_cons hinc, added_cons]

theorem RoundInv.keep (h : RoundInv lens tr s) (hinc : ev.isInc = false)
    (hdone : ∀ v, ev ≠ .done lens v) (hadd : ∀ p, ev.added lens p = 0) (he : s'.epoch = s.epoch)
    (hrec : ∀ i e call, s'.recorders i = .loaded lens e call → e = s.opticsEpoch)
    (hdata : s'.data lens = s.data lens)
    (hpoll : ∀ e ps v, s'.poller = .reading lens e ps v ↔ s.poller = .reading lens e ps v) :
    RoundInv lens (ev :: tr) s' := by
  have hepoch : s'.opticsEpoch = s.opticsEpoch := by
    unfold State.opticsEpoch
    simp only [he]
  refine ⟨fun i e call hi => (hrec i e call hi).trans hepoch.symm, fun e p => ?_, fun p => ?_,
    h.left.keep hinc hdone hepoch (fun p => by rw [hdata]) hpoll⟩
  · rw [hdata]
    exact h.unused e p
  · rw [hdata, hepoch, h.current, added_sinceInc_cons hinc, hadd, zero_add]

/-- **An add of a recorder** goes to the current slot. -/
theorem RoundInv.add [DecidableEq ι] (h : RoundInv lens tr s) {i : ι} {l : L} {e : Fin 2}
    {call : Record} {r : Bool}
    {d : LensData} (hi : s.recorders i = .loaded l e call)
    (hrun : call.run (s.data l) e = .ok (r, d)) :
    RoundInv lens (.add l (call.amount (s.data l)) :: tr)
      { s with data := Function.update s.data l d
               recorders := Function.update s.recorders i .idle } := by
  have hrec : ∀ j e' call', Function.update s.recorders i .idle j = .loaded lens e' call' →
      e' = s.opticsEpoch := by
    intro j e' call' hj
    by_cases hji : j = i
    · rw [hji, Function.update_self] at hj
      cases hj
    · rw [Function.update_of_ne hji] at hj
      exact h.recorders j e' call' hj
  by_cases hl : l = lens
  · subst hl
    have hcur : e = s.opticsEpoch := h.recorders i e call hi
    obtain ⟨hparts, hslot⟩ := Record.run_spec hrun
    have hne : s.opticsEpoch + 1 ≠ e := by
      rw [hcur]
      rcases parity_cases s.opticsEpoch with h0 | h0 <;> rw [h0] <;> decide
    have hepoch : State.opticsEpoch { s with
        data := Function.update s.data l d
        recorders := Function.update s.recorders i .idle } = s.opticsEpoch := rfl
    refine ⟨hrec, fun e' p hp => ?_, fun p => ?_, h.left.keep rfl (fun v h => nomatch h) rfl
      (fun p => ?_) fun _ _ _ => Iff.rfl⟩
    · simp only [Function.update_self] at hp ⊢
      rw [hparts] at hp
      have h0 := Record.amount_of_notMem call hp
      rw [hslot, h.unused e' p hp, h0]
      simp
    · rw [added_sinceInc_cons rfl]
      simp only [Function.update_self, Event.added, if_true]
      rw [hepoch, hslot, ← hcur, if_pos rfl, hcur, h.current, add_comm]
    · simp only [Function.update_self]
      rw [hslot, if_neg hne, add_zero]
  · refine h.keep rfl (fun v h => nomatch h) (fun p => if_neg hl) rfl hrec ?_ fun _ _ _ => Iff.rfl
    exact Function.update_of_ne (Ne.symm hl) ..

/-- **The epoch moves.** -/
theorem RoundInv.inc (h : RoundInv lens tr s) (hp : s.poller = .idle)
    (hpaced : Paced lens tr s (.inc s.opticsEpoch)) :
    RoundInv lens (.inc s.opticsEpoch :: tr) { s with epoch := w64 (s.epoch + 1) } := by
  obtain ⟨hrec, hread⟩ := hpaced
  have hne : s.opticsEpoch + 1 + 1 = s.opticsEpoch := by
    rcases parity_cases s.opticsEpoch with h0 | h0 <;> rw [h0] <;> decide
  have hidle : ∀ e ps v, s.poller ≠ .reading lens e ps v := fun e ps v hc => by
    rw [hp] at hc
    cases hc
  -- the slot that was left the last time has been read
  have hzero : ∀ p, (s.data lens).slot (s.opticsEpoch + 1) p = 0 := by
    cases h.left with
    | fresh _ _ hz => exact hz
    | unread hl hd _ _ =>
      obtain ⟨v, hv⟩ := hread (by rw [hl]; exact Option.some_ne_none _)
      exact absurd hv (hd v)
    | reading ps v _ _ _ hp' _ _ _ => exact absurd hp' (hidle _ _ _)
    | read _ _ _ hz => exact hz
  refine ⟨fun i e call hi => absurd hi (hrec i e call), h.unused, fun p => ?_, .unread ?_ ?_ hidle ?_⟩
  · rw [opticsEpoch_inc]
    exact hzero p
  · rw [opticsEpoch_inc, hne]
    rfl
  · exact fun v => List.not_mem_nil
  · intro p
    rw [opticsEpoch_inc, hne]
    exact h.current p

/-- **A read of the lens begins.** -/
theorem RoundInv.start (h : RoundInv lens tr s) {e : Fin 2} {call : Read} {ps : List Part}
    (hstart : call.parts (s.data lens) = some ps) (hpaced : Paced lens tr s (.start lens e))
    (hp : s.poller = .idle) :
    RoundInv lens (.start lens e :: tr) { s with poller := .reading lens e ps 0 } := by
  obtain ⟨hleft, hnot⟩ := hpaced rfl
  have hps := Read.parts_eq hstart
  refine ⟨h.recorders, h.unused, fun p => ?_, ?_⟩
  · rw [added_sinceInc_cons rfl]
    show _ = 0 + _
    rw [zero_add]
    exact h.current p
  cases h.left with
  | fresh hl _ _ =>
    rw [hleft] at hl
    cases hl
  | unread hl hd _ hv =>
    rw [hleft] at hl
    have he : e = s.opticsEpoch + 1 := Option.some.inj hl
    subst he
    have hl' : leftEpoch (.start lens (s.opticsEpoch + 1) :: tr) = some (s.opticsEpoch + 1) :=
      (leftEpoch_cons rfl tr).trans hleft
    refine .reading ps 0 hl' (fun v hmem => ?_)
      ⟨_, by rw [sinceInc_cons rfl]; exact List.mem_cons_self⟩ rfl (hps ▸ LensData.parts_nodup _)
      (fun p _ => ⟨?_, rfl⟩) fun p hp' => ?_
    · rw [sinceInc_cons rfl] at hmem
      rcases List.mem_cons.mp hmem with h | h
      · cases h
      · exact hd v h
    · rw [lastRound_cons rfl]
      exact hv p
    · rw [hps] at hp'
      have h0 := h.unused (s.opticsEpoch + 1) p hp'
      rw [lastRound_cons rfl, ← hv p]
      exact ⟨h0.symm, h0⟩
  | reading _ _ _ _ _ hp' _ _ _ =>
    rw [hp] at hp'
    cases hp'
  | read _ hst _ _ =>
    obtain ⟨e', he'⟩ := hst
    exact absurd he' (hnot e')

/-- **A read of the lens exchanges a part.** -/
theorem RoundInv.exchange (h : RoundInv lens tr s) (ht : TodoInUse s) {e : Fin 2} {p0 : Part}
    {ps : List Part} {v : Part → UInt64} (hp : s.poller = .reading lens e (p0 :: ps) v) :
    RoundInv lens (.exchange :: tr)
      { s with data := Function.update s.data lens ((s.data lens).setSlot e p0 0)
               poller := .reading lens e ps
                (Function.update v p0 (v p0 + (s.data lens).slot e p0)) } := by
  have hin := ht lens e _ _ hp p0 List.mem_cons_self
  cases h.left with
  | fresh _ hp' _ => exact absurd hp (hp' _ _ _)
  | unread _ _ hp' _ => exact absurd hp (hp' _ _ _)
  | read _ _ hp' _ => exact absurd hp (hp' _ _ _)
  | reading ps' v' hl hd hst hp' hnd htodo hdone =>
    rw [hp] at hp'
    cases hp'
    have hslot := LensData.slot_setSlot hin (s.opticsEpoch + 1) 0
    have hne : s.opticsEpoch ≠ s.opticsEpoch + 1 := by
      rcases parity_cases s.opticsEpoch with h0 | h0 <;> rw [h0] <;> decide
    obtain ⟨hnot, hnd'⟩ := List.nodup_cons.mp hnd
    have hl' : leftEpoch (.exchange :: tr) = some (s.opticsEpoch + 1) :=
      (leftEpoch_cons rfl tr).trans hl
    refine ⟨h.recorders, fun e p hp => ?_, fun p => ?_, .reading ps _ hl' (fun v hmem => ?_) ?_ rfl
      hnd' (fun p hmem => ?_) fun p hmem => ?_⟩
    · simp only [Function.update_self, LensData.parts_setSlot] at hp ⊢
      rw [hslot, h.unused e p hp, ite_self]
    · rw [added_sinceInc_cons rfl]
      simp only [Function.update_self]
      rw [hslot, if_neg (fun hc => hne hc.1)]
      show _ = 0 + _
      rw [zero_add]
      exact h.current p
    · rw [sinceInc_cons rfl] at hmem
      rcases List.mem_cons.mp hmem with h | h
      · cases h
      · exact hd v h
    · obtain ⟨e', he'⟩ := hst
      exact ⟨e', by rw [sinceInc_cons rfl]; exact List.mem_cons_of_mem _ he'⟩
    · have hpne : p ≠ p0 := fun hc => hnot (hc ▸ hmem)
      simp only [Function.update_self]
      rw [show State.opticsEpoch _ = s.opticsEpoch from rfl, hslot, if_neg (fun hc => hpne hc.2),
        lastRound_cons rfl, Function.update_of_ne hpne]
      exact htodo p (List.mem_cons_of_mem _ hmem)
    · simp only [Function.update_self]
      rw [show State.opticsEpoch _ = s.opticsEpoch from rfl, hslot, lastRound_cons rfl]
      by_cases hpe : p = p0
      · subst hpe
        obtain ⟨h1, h2⟩ := htodo p List.mem_cons_self
        rw [Function.update_self, h2, zero_add, h1, if_pos ⟨rfl, rfl⟩]
        exact ⟨rfl, rfl⟩
      · rw [Function.update_of_ne hpe, if_neg (fun hc => hpe hc.2)]
        exact hdone p fun hc => (List.mem_cons.mp hc).elim hpe hmem

/-- **A read of the lens returns.** -/
theorem RoundInv.done (h : RoundInv lens tr s) {e : Fin 2} {v : Part → UInt64}
    (hp : s.poller = .reading lens e [] v) :
    (∀ p, v p = added (lastRound tr) lens p) ∧
      RoundInv lens (.done lens v :: tr) { s with poller := .idle } := by
  cases h.left with
  | fresh _ hp' _ => exact absurd hp (hp' _ _ _)
  | unread _ _ hp' _ => exact absurd hp (hp' _ _ _)
  | read _ _ hp' _ => exact absurd hp (hp' _ _ _)
  | reading ps' v' hl hd hst hp' hnd htodo hdone =>
    rw [hp] at hp'
    cases hp'
    have hl' : leftEpoch (.done lens v :: tr) = some (s.opticsEpoch + 1) :=
      (leftEpoch_cons rfl tr).trans hl
    refine ⟨fun p => (hdone p List.not_mem_nil).1, h.recorders, h.unused, fun p => ?_,
      .read hl' ?_ (fun _ _ _ hc => nomatch hc) fun p => (hdone p List.not_mem_nil).2⟩
    · rw [added_sinceInc_cons rfl]
      show _ = 0 + _
      rw [zero_add]
      exact h.current p
    · obtain ⟨e', he'⟩ := hst
      exact ⟨e', by rw [sinceInc_cons rfl]; exact List.mem_cons_of_mem _ he'⟩

theorem RoundInv.init (h : Start s) : RoundInv lens [] s where
  recorders i e call hi := by
    rw [h.recorders i] at hi
    cases hi
  unused e p _ := h.zero lens e p
  current p := h.zero lens _ p
  left := .fresh rfl (fun e ps v hp => by rw [h.poller] at hp; cases hp) fun p => h.zero lens _ p

/-- **Every step keeps the invariant.** -/
theorem RoundInv.step [DecidableEq ι] (h : RoundInv lens tr s) (ht : TodoInUse s)
    (hs : Step s ev s') (hpaced : Paced lens tr s ev) : RoundInv lens (ev :: tr) s' := by
  cases hs with
  | @load i l call hi =>
    refine h.keep rfl (fun v h => nomatch h) (fun p => rfl) rfl (fun j e call' hj => ?_) rfl
      fun _ _ _ => Iff.rfl
    by_cases hji : j = i
    · simp only [hji, Function.update_self] at hj
      cases hj
      rfl
    · simp only [Function.update_of_ne hji] at hj
      exact h.recorders j e call' hj
  | add hi hrun => exact h.add hi hrun
  | inc hp => exact h.inc hp hpaced
  | fail hp hf =>
    exact h.keep rfl (fun v h => nomatch h) (fun p => rfl) rfl h.recorders rfl fun _ _ _ => Iff.rfl
  | @start l e call ps hp hstart =>
    by_cases hl : l = lens
    · subst hl
      exact h.start hstart hpaced hp
    · refine h.keep rfl (fun v h => nomatch h) (fun p => rfl) rfl h.recorders rfl fun e' ps' v => ?_
      rw [hp]
      exact ⟨fun hc => absurd (by cases hc; rfl) hl, fun hc => (nomatch hc)⟩
  | @exchange l e p0 ps v hp =>
    by_cases hl : l = lens
    · subst hl
      exact h.exchange ht hp
    · refine h.keep rfl (fun v h => nomatch h) (fun p => rfl) rfl h.recorders
        (Function.update_of_ne (Ne.symm hl) ..) fun e' ps' v => ?_
      rw [hp]
      exact ⟨fun hc => absurd (by cases hc; rfl) hl, fun hc => absurd (by cases hc; rfl) hl⟩
  | @done l e v hp =>
    by_cases hl : l = lens
    · subst hl
      exact (h.done hp).2
    · refine h.keep rfl (fun v' hc => hl (by cases hc; rfl)) (fun p => rfl) rfl h.recorders rfl
        fun e' ps' v => ?_
      rw [hp]
      exact ⟨fun hc => (nomatch hc), fun hc => absurd (by cases hc; rfl) hl⟩

theorem PacedRun.run [DecidableEq ι] (h : PacedRun lens tr s) : Run tr s := by
  induction h with
  | start h0 => exact .start h0
  | step _ hs _ ih => exact .step ih hs

theorem roundInv_run [DecidableEq ι] (h : PacedRun lens tr s) : RoundInv lens tr s := by
  induction h with
  | start h0 => exact .init h0
  | step hrun hs hp ih => exact ih.step (todoInUse_run hrun.run) hs hp

/-- **A read of a disciplined run is exact.** -/
theorem read_exact [DecidableEq ι] {v : Part → UInt64} (h : PacedRun lens tr s)
    (hs : Step s (.done lens v) s') (p : Part) : v p = added (lastRound tr) lens p := by
  cases hs with
  | done hp => exact ((roundInv_run h).done hp).1 p

/-! ### Exact counts -/

/-- **Increments are kept.** In every run of recorders and a poller, for every lens and every part of
its slots, what reads have returned and what the slots hold (with what the read under way has taken)
is the sum of the increments executed, each once. A read that returns `optics_err` changes nothing.
When in addition no recorder is between its steps as the epoch moves and the slot that was left is
read once before it moves again, a read returns the increments of the last round. -/
theorem increments_kept [DecidableEq ι] (lens : L) :
    (∀ (tr : List (Event L)) (s : State ι L), Run tr s → ∀ p,
      returned tr lens p + s.pending lens p + ((s.data lens).slot 0 p + (s.data lens).slot 1 p) =
        added tr lens p) ∧
    (∀ (tr : List (Event L)) (s : State ι L), Run tr s → s.poller = .idle → ∀ p,
      returned tr lens p + ((s.data lens).slot 0 p + (s.data lens).slot 1 p) = added tr lens p) ∧
    (∀ (s s' : State ι L), Step s (.fail lens) s' → s' = s) ∧
    (∀ d e v, (Read.parts d .counter = none ↔ (lensCounterRead d e v).1 = .err) ∧
      ((lensCounterRead d e v).1 = .err → (lensCounterRead d e v).2 = (v, d))) ∧
    (∀ d e (v : OpticsHisto),
      (Read.parts d (.histo v.buckets) = none ↔ (lensHistoRead d e v).1 = .err) ∧
      ((lensHistoRead d e v).1 = .err → (lensHistoRead d e v).2 = (v, d))) ∧
    ∀ (tr : List (Event L)) (s s' : State ι L) (v : Part → UInt64), PacedRun lens tr s →
      Step s (.done lens v) s' → ∀ p, v p = added (lastRound tr) lens p := by
  refine ⟨fun tr s h p => run_conserves h lens p, fun tr s h hp p => ?_, fun s s' hs => ?_,
    fun d e v => lensCounterRead_err, fun d e v => lensHistoRead_err,
    fun tr s s' v h hs p => read_exact h hs p⟩
  · have hc := run_conserves h lens p
    rwa [State.pending, hp, add_zero] at hc
  · cases hs
    rfl

/-- A recorder adds 5, the epoch moves, and the read returns 5. -/
theorem increments_kept_five : ∃ (tr : List (Event Unit)) (s s' : State Unit Unit)
    (v : Part → UInt64), PacedRun () tr s ∧ Step s (.done () v) s' ∧ v .value = 5 ∧
      returned tr () .value + s.pending () .value +
        ((s.data ()).slot 0 .value + (s.data ()).slot 1 .value) = 5 := by
  have h0 : PacedRun () [] (⟨0, fun _ => .counter fun _ => 0, fun _ => .idle, .idle⟩ :
      State Unit Unit) := .start ⟨fun _ => rfl, rfl, fun _ e p => by simp [LensData.slot]⟩
  have h1 := h0.step (@Step.load Unit Unit _ _ _ () () (.counterInc 5) rfl) trivial
  have h2 := h1.step (.add (i := ()) rfl rfl) trivial
  have h3 := h2.step (.inc rfl) ⟨fun i e call h => by simp at h, fun h => absurd rfl h⟩
  have h4 := h3.step (@Step.start Unit Unit _ _ _ () 0 .counter _ rfl rfl)
    fun _ => ⟨rfl, fun e => List.not_mem_nil⟩
  have h5 := h4.step (.exchange rfl) trivial
  have hexact := fun s' v hs => (increments_kept ()).2.2.2.2.2 _ _ s' v h5 hs .value
  exact ⟨_, _, _, _, h5, .done rfl, hexact _ _ (.done rfl),
    (increments_kept ()).1 _ _ h5.run .value⟩

end Rounds

end Optics.Recording
