import Optics.PollReturns

/-! # Which lenses share a record

A record should be shared by the lenses that are printed under one name, `prefix.host.name`, and by no
others. Records go by keys, and a key is the printed name without the dots of empty leading parts, cut
at 255 bytes (`keyBytes_eq`). Names that differ behind the cut only have one key, and so may names of
which one begins with empty parts; `shares_iff` says which pairs of lenses are told apart as they
should be (`Distinct`). -/

namespace Optics.PollNames

open Optics.Base Optics.Lenses Optics.LensSlots Optics.Doubles Optics.Utils.Random
open Optics.Utils.Htables Optics.Utils.HtableMap Optics.Utils.HtableGrowth Optics.Utils.Keys
open Optics.Polling Optics.PollTotals Optics.PollReturns

/-! ### Names -/

/-- A name that is stored in an array of `optics_name_max_len` bytes, unless it is too long. -/
def storeName (name : CStr) : Option CStr :=
  if name.strnlen opticsNameMaxLen = opticsNameMaxLen then none
  else some (name.take (opticsNameMaxLen - 1))

/-- `optics_set_prefix`: the prefix of the region. -/
def opticsSetPrefix (regionPrefix : CStr) : Option CStr := storeName regionPrefix

/-- `optics_poller_set_host`: the host of the poller. -/
def opticsPollerSetHost (host : CStr) : Option CStr := storeName host

/-- `lens_alloc`: the name of the lens. -/
def lensAllocName (name : CStr) : Option CStr :=
  if name.strnlen opticsNameMaxLen + 1 = opticsNameMaxLen then none
  else some (name.take opticsNameMaxLen)

/-- The name `carbon_dump_normalized` prints. -/
def printedName (w : PollerPollCtx × PolledLens) : List UInt8 :=
  w.1.regionPrefix.val ++ dot :: (w.1.host.val ++ dot :: w.2.name.val)

/-- The number of empty parts in front, each of which leaves a dot only. -/
def emptyParts (ctx : PollerPollCtx) : ℕ :=
  if ctx.regionPrefix.val ≠ [] then 0 else if ctx.host.val ≠ [] then 1 else 2

/-- **The key** of a lens is its printed name without the dots of empty parts in front, cut. -/
theorem keyBytes_eq (w : PollerPollCtx × PolledLens) :
    (workKey w).val = ((printedName w).drop (emptyParts w.1)).take (opticsNameMaxLen - 1) := by
  show keyBytes w.1.regionPrefix w.1.host w.2.name = _
  unfold keyBytes printedName emptyParts
  congr 1
  by_cases hp : w.1.regionPrefix.val = []
  · rw [if_neg (not_not.mpr hp), hp]
    by_cases hh : w.1.host.val = []
    · rw [if_neg (not_not.mpr hh), hh]
      rfl
    · rw [if_pos hh, join, if_neg]
      · rfl
      · exact hh
  · rw [if_pos hp, join, if_neg]
    · simp [join, hp]
    · simp [join, hp]

theorem printedName_dot {w : PollerPollCtx × PolledLens} {i : ℕ} (hi : i < emptyParts w.1) :
    (printedName w)[i]? = some dot := by
  unfold emptyParts at hi
  unfold printedName
  by_cases hp : w.1.regionPrefix.val = []
  · rw [if_neg (not_not.mpr hp)] at hi
    rw [hp]
    by_cases hh : w.1.host.val = []
    · rw [if_neg (not_not.mpr hh)] at hi
      rw [hh]
      match i, hi with
      | 0, _ => rfl
      | 1, _ => rfl
    · rw [if_pos hh] at hi
      match i, hi with
      | 0, _ => rfl
  · rw [if_pos hp] at hi
    exact absurd hi (Nat.not_lt_zero i)

/-- With one host, a name with fewer empty parts in front than another has none. -/
theorem emptyParts_eq_zero {c c' : PollerPollCtx} (hhost : c.host = c'.host)
    (h : emptyParts c < emptyParts c') : emptyParts c = 0 := by
  unfold emptyParts at h ⊢
  rw [hhost] at h ⊢
  split_ifs at h ⊢ <;> omega

/-! ### Sharing -/

/-- With one name, the lenses have as many empty parts in front, or the name begins with dots only;
with two names, these differ in front of the cut. -/
def Distinct (v w : PollerPollCtx × PolledLens) : Prop :=
  if printedName v = printedName w then
    emptyParts v.1 = emptyParts w.1 ∨
      ∀ i < opticsNameMaxLen - 1 + max (emptyParts v.1) (emptyParts w.1),
        (printedName v)[i]? = some dot
  else
    ∃ i < opticsNameMaxLen - 1,
      (printedName v)[emptyParts v.1 + i]? ≠ (printedName w)[emptyParts w.1 + i]?

theorem take_eq_iff {α : Type} {n : ℕ} {l l' : List α} :
    l.take n = l'.take n ↔ ∀ i < n, l[i]? = l'[i]? := by
  constructor
  · intro h i hi
    rw [← List.getElem?_take_of_lt hi, h, List.getElem?_take_of_lt hi]
  · intro h
    refine List.ext_getElem? fun i => ?_
    rcases Nat.lt_or_ge i n with hi | hi
    · rw [List.getElem?_take_of_lt hi, List.getElem?_take_of_lt hi, h i hi]
    · rw [List.getElem?_take_eq_none hi, List.getElem?_take_eq_none hi]

theorem workKey_eq_iff (v w : PollerPollCtx × PolledLens) : workKey v = workKey w ↔
    ∀ i < opticsNameMaxLen - 1,
      (printedName v)[emptyParts v.1 + i]? = (printedName w)[emptyParts w.1 + i]? := by
  rw [← Subtype.val_inj, keyBytes_eq, keyBytes_eq, take_eq_iff]
  simp only [List.getElem?_drop]

theorem forall_dot {l : List UInt8} {k n : ℕ} (hk : 0 < k) (hl : ∀ i < k, l[i]? = some dot)
    (h : ∀ i < n, l[i]? = l[k + i]?) : ∀ i < n + k, l[i]? = some dot := by
  intro i
  induction i using Nat.strong_induction_on with
  | _ i ih =>
    intro hi
    rcases Nat.lt_or_ge i k with hik | hik
    · exact hl i hik
    · have hback := h (i - k) (by omega)
      rw [show k + (i - k) = i by omega] at hback
      rw [← hback]
      exact ih (i - k) (by omega) (by omega)

/-- **Keys and names** tell two lenses with one host apart alike if they are `Distinct`, and only
then. -/
theorem workKey_iff {v w : PollerPollCtx × PolledLens} (hhost : v.1.host = w.1.host) :
    (workKey v = workKey w ↔ printedName v = printedName w) ↔ Distinct v w := by
  rw [workKey_eq_iff]
  unfold Distinct
  by_cases hname : printedName v = printedName w
  · rw [if_pos hname, iff_true_right hname, hname]
    have hdots : ∀ {k}, 0 < k → (∀ i < k, (printedName w)[i]? = some dot) →
        ((∀ i < opticsNameMaxLen - 1, (printedName w)[i]? = (printedName w)[k + i]?) ↔
          ∀ i < opticsNameMaxLen - 1 + k, (printedName w)[i]? = some dot) := by
      intro k hk hl
      constructor
      · exact forall_dot hk hl
      · intro h i hi
        rw [h i (by omega), h (k + i) (by omega)]
    rcases Nat.lt_trichotomy (emptyParts v.1) (emptyParts w.1) with hlt | heq | hgt
    · have hzero := emptyParts_eq_zero hhost hlt
      rw [hzero, Nat.zero_max]
      simp only [Nat.zero_add]
      rw [hdots (by omega) fun i hi => printedName_dot hi, or_iff_right (by omega)]
    · rw [heq]
      exact ⟨fun _ => .inl rfl, fun _ _ _ => rfl⟩
    · have hzero := emptyParts_eq_zero hhost.symm hgt
      rw [hzero, Nat.max_zero]
      simp only [Nat.zero_add]
      rw [or_iff_right (by omega),
        ← hdots (by omega) fun i hi => hname ▸ printedName_dot hi]
      exact forall₂_congr fun i hi => eq_comm
  · rw [if_neg hname, iff_false_right hname]
    push Not
    exact Iff.rfl

/-- Names of up to 255 bytes that do not begin with an empty prefix are told apart as they should
be. -/
theorem distinct_of_short {v w : PollerPollCtx × PolledLens} (hv : v.1.regionPrefix.val ≠ [])
    (hw : w.1.regionPrefix.val ≠ []) (hvlen : (printedName v).length ≤ opticsNameMaxLen - 1)
    (hwlen : (printedName w).length ≤ opticsNameMaxLen - 1) : Distinct v w := by
  have hv0 : emptyParts v.1 = 0 := if_pos hv
  have hw0 : emptyParts w.1 = 0 := if_pos hw
  unfold Distinct
  rw [hv0, hw0]
  by_cases hname : printedName v = printedName w
  · rw [if_pos hname]
    exact .inl rfl
  · rw [if_neg hname]
    by_contra hc
    push Not at hc
    refine hname ?_
    rw [← List.take_of_length_le hvlen, ← List.take_of_length_le hwlen, take_eq_iff]
    simpa using hc

/-! ### Polls -/

section Polls
variable {σ : Type} {hash : CStr → UInt64} {fpu : Fpu} {rng : Rng σ}

/-- **Records go by keys.** -/
theorem record_eq_iff {host : CStr} {ts : ℕ} {items : List PollerListItem} {gen : σ}
    {out : List (List (ℕ × PolledLens))} {values : Values σ}
    (hrun : pollItems hash fpu rng host ts items (Values.zero gen) = .ok (out, values))
    {a b : (PollerPollCtx × PolledLens) × (ℕ × PolledLens)}
    (ha : a ∈ (works host ts items).zip out.flatten) (hb : b ∈ (works host ts items).zip out.flatten) :
    a.2.1 = b.2.1 ↔ workKey a.1 = workKey b.1 := by
  obtain ⟨-, keys, hv⟩ := pollItems_visited hrun
  have hvisit : ∀ {c}, c ∈ (works host ts items).zip out.flatten →
      keys[c.2.1]? = some (workKey c.1) := fun {c} hc => by
    refine hv.record ⟨c.1.1, c.1.2, c.2.1, c.2.2⟩ ?_
    unfold visits
    rw [← List.map_uncurry_zip_eq_zipWith]
    exact List.mem_map_of_mem hc
  constructor
  · intro h
    have := hvisit ha
    rw [h, hvisit hb] at this
    exact (Option.some.inj this).symm
  · intro h
    exact hv.indexed.index_inj (hvisit ha) (h ▸ hvisit hb)

/-- **Two lenses of a poll** share a record if and only if they are printed under one name, exactly if
they are `Distinct`. -/
theorem shares_iff {host : CStr} {ts : ℕ} {items : List PollerListItem} {gen : σ}
    {out : List (List (ℕ × PolledLens))} {values : Values σ}
    (hrun : pollItems hash fpu rng host ts items (Values.zero gen) = .ok (out, values))
    {a b : (PollerPollCtx × PolledLens) × (ℕ × PolledLens)}
    (ha : a ∈ (works host ts items).zip out.flatten) (hb : b ∈ (works host ts items).zip out.flatten) :
    (a.2.1 = b.2.1 ↔ printedName a.1 = printedName b.1) ↔ Distinct a.1 b.1 := by
  have hhost : ∀ {c}, c ∈ (works host ts items).zip out.flatten → c.1.1.host = host := fun hc => by
    obtain ⟨item, -, lens, -, hw⟩ := mem_works.mp (List.of_mem_zip hc).1
    rw [← hw]
    rfl
  rw [record_eq_iff hrun ha hb]
  exact workKey_iff ((hhost ha).trans (hhost hb).symm)

end Polls

/-! ### Two lenses of a region -/

/-- A name of 253 letters and another byte. -/
def longName (c : UInt8) (hc : c ≠ 0) : CStr :=
  ⟨List.replicate 253 120 ++ [c], fun h => by
    rcases List.mem_append.mp h with h | h
    · exact absurd (List.eq_of_mem_replicate h) (by decide)
    · exact hc (List.mem_singleton.mp h).symm⟩

/-- Two regions `a` with a counter each. -/
def regionsOf (name name' : CStr) : List PollerListItem :=
  [⟨nameA, 10, 0, [⟨name, .counter fun _ => 3⟩]⟩, ⟨nameA, 10, 0, [⟨name', .counter fun _ => 4⟩]⟩]

def workOf (name : CStr) (value : UInt64) : PollerPollCtx × PolledLens :=
  (⟨15, 5, nameH, nameA, 0⟩, ⟨name, .counter fun _ => value⟩)

theorem regionsOf_run {name name' : CStr} (hkey : workKey (workOf name 3) = workKey (workOf name' 4)) :
    ∃ out values o o', pollItems htableHash saturating (xorshift saturating) nameH 15
        (regionsOf name name') (Values.zero 1) = .ok (out, values) ∧
      (workOf name 3, o) ∈ (works nameH 15 (regionsOf name name')).zip out.flatten ∧
      (workOf name' 4, o') ∈ (works nameH 15 (regionsOf name name')).zip out.flatten := by
  have hworks : works nameH 15 (regionsOf name name') = [workOf name 3, workOf name' 4] := rfl
  have hone : ∀ w ∈ works nameH 15 (regionsOf name name'), workKey w = workKey (workOf name' 4) := by
    intro w hw
    rw [hworks] at hw
    rcases List.mem_cons.mp hw with rfl | hw
    · exact hkey
    · rw [List.mem_singleton.mp hw]
  obtain ⟨out, values, hrun⟩ := returns_of_one_key hone 1
  obtain ⟨hlen, -⟩ := pollItems_visited hrun
  obtain ⟨o, o', hout⟩ := List.length_eq_two.mp hlen
  refine ⟨out, values, o, o', hrun, ?_, ?_⟩
  · rw [hworks, hout]
    exact List.mem_cons_self
  · rw [hworks, hout]
    exact List.mem_cons_of_mem _ List.mem_cons_self

theorem printedName_long (c : UInt8) (hc : c ≠ 0) (value : UInt64) :
    printedName (workOf (longName c hc) value) =
      (nameA.val ++ dot :: (nameH.val ++ dot :: List.replicate 253 120)) ++ [c] := by
  rw [List.append_assoc, List.cons_append, List.append_assoc, List.cons_append]
  rfl

theorem length_longName (c : UInt8) (hc : c ≠ 0) : (longName c hc).val.length = 254 := by
  show (List.replicate 253 120 ++ [c]).length = 254
  rw [List.length_append, List.length_replicate]
  rfl

theorem lensAllocName_long (c : UInt8) (hc : c ≠ 0) :
    lensAllocName (longName c hc) = some (longName c hc) := by
  have hlen := length_longName c hc
  unfold lensAllocName CStr.strnlen
  rw [hlen, if_neg (by decide), CStr.take_of_length_le (by rw [hlen]; decide)]

theorem workKey_long (c c' : UInt8) (hc : c ≠ 0) (hc' : c' ≠ 0) :
    workKey (workOf (longName c hc) 3) = workKey (workOf (longName c' hc') 4) := by
  have hlen : opticsNameMaxLen - 1 ≤
      (nameA.val ++ dot :: (nameH.val ++ dot :: List.replicate 253 120)).length := by
    rw [List.length_append, List.length_cons, List.length_append, List.length_cons,
      List.length_replicate]
    decide
  refine Subtype.ext ?_
  rw [keyBytes_eq, keyBytes_eq, printedName_long, printedName_long]
  show (List.drop 0 _).take _ = (List.drop 0 _).take _
  rw [List.drop_zero, List.drop_zero, List.take_append_of_le_length hlen,
    List.take_append_of_le_length hlen]

/-- Two counters of regions `a` on a host `h`, with names of 254 bytes that differ in the last one,
share a record; all the names are accepted. -/
theorem names_merged : opticsSetPrefix nameA = some nameA ∧ opticsPollerSetHost nameH = some nameH ∧
    lensAllocName (longName 121 (by decide)) = some (longName 121 (by decide)) ∧
    lensAllocName (longName 122 (by decide)) = some (longName 122 (by decide)) ∧
    ∃ out values o o', pollItems htableHash saturating (xorshift saturating) nameH 15
        (regionsOf (longName 121 (by decide)) (longName 122 (by decide))) (Values.zero 1) =
          .ok (out, values) ∧
      (workOf (longName 121 (by decide)) 3, o) ∈ (works nameH 15
        (regionsOf (longName 121 (by decide)) (longName 122 (by decide)))).zip out.flatten ∧
      (workOf (longName 122 (by decide)) 4, o') ∈ (works nameH 15
        (regionsOf (longName 121 (by decide)) (longName 122 (by decide)))).zip out.flatten ∧
      ¬ (o.1 = o'.1 ↔ printedName (workOf (longName 121 (by decide)) 3) =
        printedName (workOf (longName 122 (by decide)) 4)) := by
  have hkey := workKey_long 121 122 (by decide) (by decide)
  obtain ⟨out, values, o, o', hrun, ho, ho'⟩ := regionsOf_run hkey
  refine ⟨rfl, rfl, lensAllocName_long _ _, lensAllocName_long _ _, out, values, o, o', hrun, ho, ho',
    fun h => ?_⟩
  have hname := h.mp ((record_eq_iff hrun ho ho').mpr hkey)
  rw [printedName_long, printedName_long] at hname
  have hlast := (List.append_inj hname rfl).2
  cases hlast

/-- Counters of one name share a record. -/
theorem shares_iff_one : ∃ out values o o', pollItems htableHash saturating (xorshift saturating)
      nameH 15 (regionsOf nameC nameC) (Values.zero 1) = .ok (out, values) ∧
    (o.1 = o'.1 ↔ printedName (workOf nameC 3) = printedName (workOf nameC 4)) ∧
    (o : ℕ × PolledLens).1 = (o' : ℕ × PolledLens).1 := by
  obtain ⟨out, values, o, o', hrun, ho, ho'⟩ := @regionsOf_run nameC nameC rfl
  have hdistinct : Distinct (workOf nameC 3) (workOf nameC 4) := by
    rw [Distinct, if_pos (show printedName (workOf nameC 3) = printedName (workOf nameC 4) from rfl)]
    exact .inl rfl
  have hiff := (shares_iff hrun ho ho').mpr hdistinct
  exact ⟨out, values, o, o', hrun, hiff, hiff.mpr rfl⟩

end Optics.PollNames
