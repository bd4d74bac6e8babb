import Optics.BackendRest
import Optics.PollNames

/-! # What a request is read as

The text of a request, read by a parser of JSON. A counter is signed but printed without a sign, so
that the counters come back as they are if none is negative, and only then (`counters_iff`). Keys are
printed without escapes, so that the text is an object with the metrics for members if no key has a
quote, a backslash or a control character in it and all are UTF-8, and only then (`document_iff`). -/

namespace Optics.RestDocument

open Optics.Base Optics.Lenses Optics.LensSlots Optics.LensReads
open Optics.Utils.Keys Optics.Utils.Formats Optics.Lib.ByteOrder
open Optics.Lib.Decimals Optics.Lib.Utf8 Optics.Lib.JsonText
open Optics.Polling Optics.PollReturns Optics.PollNames Optics.BackendRest

/-! ### Values -/

/-- A double that is a number. -/
def IsFinite (d : Double) : Prop := ∃ q, d = .fin q

/-- The doubles that are printed are numbers. -/
def Finite : OpticsPollValue → Prop
  | .counter _ => True
  | .gauge bits => IsFinite (punItod bits)
  | .dist dist => IsFinite dist.p50 ∧ IsFinite dist.p90 ∧ IsFinite dist.p99 ∧ IsFinite dist.max
  | .histo _ => True
  | .quantile quantile => IsFinite quantile.sample

theorem natMember_isValue (name : List UInt8) (n : UInt64) :
    IsValue (natMember name n).text (natMember name n).value := isValue_decimal n.toNat

theorem doubleMember_isValue {d : Double} (h : IsFinite d) (name : List UInt8) (sign : Bool) :
    IsValue (doubleMember name sign d).text (doubleMember name sign d).value := by
  obtain ⟨q, rfl⟩ := h
  exact isValue_numeral (numeralG_valid sign q)

/-- A text of ASCII bytes that need no escapes. -/
def Plain (s : List UInt8) : Prop := ∀ c ∈ s, c ≠ quote ∧ c ≠ backslash ∧ 32 ≤ c ∧ c < 0x80

instance (s : List UInt8) : Decidable (Plain s) := List.decidableBAll _ s

theorem Plain.clean {s : List UInt8} (h : Plain s) : Clean s :=
  fun c hc => ⟨(h c hc).1, (h c hc).2.1, (h c hc).2.2.1⟩

theorem Plain.ascii {s : List UInt8} (h : Plain s) : Ascii s := fun c hc => (h c hc).2.2.2

theorem Plain.append {s t : List UInt8} (hs : Plain s) (ht : Plain t) : Plain (s ++ t) := by
  intro c hc
  rcases List.mem_append.mp hc with hc | hc
  · exact hs c hc
  · exact ht c hc

theorem plain_formatU (n : UInt64) : Plain (formatU n) := by
  intro c hc
  have hd : isDigit c = true := decimal_digits hc
  have hlt : c < 0x80 := ascii_decimal n.toNat c hc
  refine ⟨?_, ?_, ?_, hlt⟩
  · rintro rfl
    cases hd
  · rintro rfl
    cases hd
  · simp only [isDigit, Bool.and_eq_true, decide_eq_true_eq] at hd
    exact UInt8.le_trans (by decide) hd.1

theorem partLabel_plain (histo : OpticsHisto) (part : Part) : Plain (partLabel histo part) := by
  cases part with
  | value => exact fun c hc => absurd hc List.not_mem_nil
  | below => exact show Plain belowName by decide
  | above => exact show Plain aboveName by decide
  | counts i =>
    exact .append (show Plain bucketText by decide) (.append (plain_formatU _)
      (.append (s := [dash]) (by decide) (plain_formatU _)))

theorem natMember_ascii (name : List UInt8) (n : UInt64) : Ascii (natMember name n).text :=
  ascii_decimal n.toNat

theorem doubleMember_ascii (name : List UInt8) (sign : Bool) (d : Double) :
    Ascii (doubleMember name sign d).text := by
  cases d with
  | fin q => exact ascii_numeral (numeralG_valid sign q)
  | nan =>
    cases sign with
    | false => exact (show Plain [110, 97, 110] by decide).ascii
    | true => exact (show Plain [45, 110, 97, 110] by decide).ascii
  | negInf => exact (show Plain [45, 105, 110, 102] by decide).ascii
  | posInf => exact (show Plain [105, 110, 102] by decide).ascii

theorem valueMembers_names {signs : List UInt8 → Bool} {v : OpticsPollValue} {members : List Member}
    (h : valueMembers signs v = some members) : ∀ m ∈ members, Plain m.name ∧ Ascii m.text := by
  have hdouble : ∀ {name : List UInt8} {sign : Bool} (d : Double), Plain name →
      Plain (doubleMember name sign d).name ∧ Ascii (doubleMember name sign d).text :=
    fun d h => ⟨h, doubleMember_ascii _ _ d⟩
  have hnat : ∀ {name : List UInt8} (n : UInt64), Plain name →
      Plain (natMember name n).name ∧ Ascii (natMember name n).text :=
    fun n h => ⟨h, natMember_ascii _ n⟩
  cases v with
  | counter n => cases h
  | gauge bits => cases h
  | dist dist =>
    cases h
    simp only [List.forall_mem_cons]
    exact ⟨hdouble _ (by decide), hdouble _ (by decide), hdouble _ (by decide),
      hdouble _ (by decide), hnat _ (by decide), fun m hm => absurd hm List.not_mem_nil⟩
  | histo histo =>
    cases h
    intro m hm
    obtain ⟨part, -, rfl⟩ := List.mem_map.mp hm
    exact hnat _ (partLabel_plain histo part)
  | quantile quantile =>
    cases h
    simp only [List.forall_mem_cons]
    exact ⟨hdouble _ (by decide), hnat _ (by decide), fun m hm => absurd hm List.not_mem_nil⟩

theorem valueMembers_isValue {signs : List UInt8 → Bool} {v : OpticsPollValue} (hv : Finite v)
    {members : List Member} (h : valueMembers signs v = some members) : ∀ m ∈ members, IsValue m.text m.value := by
  cases v with
  | counter n => cases h
  | gauge bits => cases h
  | dist dist =>
    cases h
    obtain ⟨h50, h90, h99, hmax⟩ := hv
    simp only [List.forall_mem_cons]
    exact ⟨doubleMember_isValue h50 _ _, doubleMember_isValue h90 _ _, doubleMember_isValue h99 _ _,
      doubleMember_isValue hmax _ _, natMember_isValue _ _, fun m hm => absurd hm List.not_mem_nil⟩
  | histo histo =>
    cases h
    intro m hm
    obtain ⟨part, -, rfl⟩ := List.mem_map.mp hm
    exact natMember_isValue _ _
  | quantile quantile =>
    cases h
    simp only [List.forall_mem_cons]
    exact ⟨doubleMember_isValue hv _ _, natMember_isValue _ _, fun m hm => absurd hm List.not_mem_nil⟩

/-- **The value of a metric** is read back, whatever its key. -/
theorem metricMember_isValue (signs : Signs) {metric : Metric} (h : Finite metric.value) :
    IsValue (metricMember signs metric).text (metricMember signs metric).value := by
  obtain ⟨key, v⟩ := metric
  have hobject : ∀ {members : List Member}, valueMembers (signs ⟨key, v⟩) v = some members →
      IsValue (printObject members) (.obj (memberValues members)) := fun hm =>
    isValue_object (valueMembers_isValue h hm) fun m hin => (valueMembers_names hm m hin).1.clean
  cases v with
  | counter n => exact natMember_isValue _ n
  | gauge bits => exact doubleMember_isValue h _ _
  | dist dist => exact hobject rfl
  | histo histo => exact hobject rfl
  | quantile quantile => exact hobject rfl

theorem metricMember_ascii (signs : Signs) (metric : Metric) :
    Ascii (metricMember signs metric).text := by
  obtain ⟨key, v⟩ := metric
  have hobject : ∀ {members : List Member}, valueMembers (signs ⟨key, v⟩) v = some members →
      Ascii (printObject members) := fun hm =>
    ascii_printObject fun m hin =>
      ⟨(valueMembers_names hm m hin).1.ascii, (valueMembers_names hm m hin).2⟩
  cases v with
  | counter n => exact natMember_ascii _ n
  | gauge bits => exact doubleMember_ascii _ _ _
  | dist dist => exact hobject rfl
  | histo histo => exact hobject rfl
  | quantile quantile => exact hobject rfl

theorem metricMember_name (signs : Signs) (metric : Metric) :
    (metricMember signs metric).name = metric.key.val := by
  obtain ⟨key, v⟩ := metric
  cases v <;> rfl

/-! ### Counters -/

/-- A counter, as an `int64_t`. -/
def signed (n : UInt64) : ℤ := n.toInt64.toInt

theorem signed_eq (n : UInt64) :
    signed n = if n.toNat < 2 ^ 63 then (n.toNat : ℤ) else n.toNat - 2 ^ 64 := by
  show n.toBitVec.toInt = _
  rw [BitVec.toInt_eq_toNat_cond, UInt64.toNat_toBitVec]
  split_ifs <;> first | rfl | omega

/-- The entry for a counter. -/
def counterMetric (c : CStr × UInt64) : Metric := ⟨c.1, .counter c.2⟩

/-- When the table that has been filled is shown, a request is answered with an object that has the
counters for members, by ascending keys, each with its signed value. -/
def ShowsCounters (signs : Signs) (rest : Rest) (counters : List (CStr × UInt64)) : Prop :=
  ∃ rest' text, ∃ order : List (CStr × UInt64), swapTables rest = .ok rest' ∧
    restGet signs rest' = .ok text ∧ order.Perm counters ∧
    (order.Pairwise fun a b => strncmp opticsNameMaxLen a.1.val b.1.val ≤ 0) ∧
    parse text = some (.obj (order.map fun c => (c.1.val, .num (signed c.2))))

/-- A table of counters, shown: what comes back are the values without a sign. -/
theorem counters_shown (signs : Signs) {rest : Rest} {counters : List (CStr × UInt64)}
    (hbuild : entries rest.build = counters.map counterMetric)
    (hclean : ∀ c ∈ counters, Clean c.1.val) :
    ∃ rest' text, ∃ order : List (CStr × UInt64), swapTables rest = .ok rest' ∧
      restGet signs rest' = .ok text ∧
      order.Perm counters ∧
      (order.Pairwise fun a b => strncmp opticsNameMaxLen a.1.val b.1.val ≤ 0) ∧
      parse text = some (.obj (order.map fun c => (c.1.val, .num c.2.toNat))) := by
  obtain ⟨rest', hswap, -, hperm, hsorted⟩ := swapTables_spec rest
  rw [hbuild] at hperm
  -- the counters, in the order of the table
  obtain ⟨order, hmap, horder⟩ : ∃ order : List (CStr × UInt64),
      entries rest'.current = order.map counterMetric ∧ order.Perm counters := by
    have h := congrFun (congrFun (List.eq_map_comp_perm counterMetric) (entries rest'.current))
      counters
    exact h.mpr hperm
  rw [hmap] at hsorted
  have hshaped : ∀ m ∈ entries rest'.current, Shaped m.value := by
    rw [hmap, List.forall_mem_map]
    exact fun c _ => trivial
  have hvalue : IsValue (printObject ((entries rest'.current).map (metricMember signs)))
      (.obj (memberValues ((entries rest'.current).map (metricMember signs)))) := by
    refine isValue_object ?_ ?_
    · rw [List.forall_mem_map, hmap, List.forall_mem_map]
      exact fun c _ => natMember_isValue _ _
    · rw [List.forall_mem_map, hmap, List.forall_mem_map]
      exact fun c hc => hclean c (horder.mem_iff.mp hc)
  refine ⟨rest', _, order, hswap, restGet_spec signs hshaped, horder, List.pairwise_map.mp hsorted, ?_⟩
  rw [hvalue.parse_eq, hmap, memberValues, List.map_map, List.map_map]
  rfl

/-- **The counters** come back as they are, each under its key and in order, exactly if none of them is
negative. -/
theorem counters_iff (signs : Signs) {rest : Rest} {counters : List (CStr × UInt64)}
    (hbuild : entries rest.build = counters.map counterMetric)
    (hnodup : (counters.map Prod.fst).Nodup) (hclean : ∀ c ∈ counters, Clean c.1.val) :
    ShowsCounters signs rest counters ↔ ∀ c ∈ counters, 0 ≤ signed c.2 := by
  obtain ⟨rest1, text1, order1, hswap1, hget1, hperm1, hsorted1, hparse1⟩ :=
    counters_shown signs hbuild hclean
  constructor
  · rintro ⟨rest', text, order, hswap, hget, hperm, -, hparse⟩ c hc
    cases hswap.symm.trans hswap1
    cases hget.symm.trans hget1
    have hmembers := Json.obj.inj (Option.some.inj (hparse.symm.trans hparse1))
    have hmem : (c.1.val, Json.num c.2.toNat) ∈ order.map fun c => (c.1.val, Json.num (signed c.2)) := by
      rw [hmembers]
      exact List.mem_map_of_mem (hperm1.mem_iff.mpr hc)
    obtain ⟨c', hc', heq⟩ := List.mem_map.mp hmem
    obtain ⟨hkey, hnum⟩ := Prod.mk.inj heq
    -- the keys are apart, so that it is the same counter
    have hsame : c' = c := List.inj_on_of_nodup_map hnodup (hperm.mem_iff.mp hc') hc
      (Subtype.ext hkey)
    rw [hsame] at hnum
    have hcast : (signed c.2 : ℚ) = (c.2.toNat : ℤ) := Json.num.inj hnum
    rw [Int.cast_inj.mp hcast]
    exact Int.natCast_nonneg _
  · intro h
    refine ⟨rest1, text1, order1, hswap1, hget1, hperm1, hsorted1, ?_⟩
    rw [hparse1]
    congr 2
    refine List.map_congr_left fun c hc => ?_
    have hnonneg := h c (hperm1.mem_iff.mp hc)
    have hlt := c.2.toNat_lt
    have heq : signed c.2 = (c.2.toNat : ℤ) := by
      rw [signed_eq] at hnonneg ⊢
      split_ifs at hnonneg ⊢
      · rfl
      · omega
    rw [heq]
    rfl

/-- A table of some counters. -/
def countersTable (counters : List (CStr × UInt64)) (h : counters.length ≤ metricsInitCap) : Rest :=
  ⟨none, some ⟨metricsInitCap, counters.map counterMetric, metricsInitCap_pos, by rwa [List.length_map]⟩⟩

/-- A counter that has been decremented below zero. -/
theorem counters_unsigned :
    [(nameC, (0 : UInt64) - 1)].map Prod.fst = [nameC] ∧ Clean nameC.val ∧
    ¬ ShowsCounters .clear (countersTable [(nameC, 0 - 1)] (by decide)) [(nameC, 0 - 1)] := by
  have hclean : Clean nameC.val := (show Plain nameC.val by decide).clean
  refine ⟨rfl, hclean, ?_⟩
  rintro ⟨rest', text, order, hswap, hget, hperm, -, hparse⟩
  obtain ⟨rest1, text1, order1, hswap1, hget1, hperm1, -, hparse1⟩ :=
    @counters_shown .clear (countersTable [(nameC, 0 - 1)] (by decide)) [(nameC, 0 - 1)] rfl
      (List.forall_mem_singleton.mpr hclean)
  cases hswap.symm.trans hswap1
  cases hget.symm.trans hget1
  rw [List.perm_singleton.mp hperm] at hparse
  rw [List.perm_singleton.mp hperm1] at hparse1
  have hmembers := Json.obj.inj (Option.some.inj (hparse.symm.trans hparse1))
  have hnum := Json.num.inj (Prod.mk.inj (List.cons.inj hmembers).1).2
  have hlt : (signed (0 - 1) : ℚ) < 0 := Int.cast_lt_zero.mpr (by decide)
  rw [hnum] at hlt
  exact absurd hlt (not_lt.mpr (Nat.cast_nonneg _))

/-- Two counters. -/
theorem counters_iff_two : ShowsCounters .clear
    (countersTable [(nameC, 3), (nameA, 7)] (by decide)) [(nameC, 3), (nameA, 7)] := by
  refine (counters_iff .clear rfl (by decide) ?_).mpr (by decide)
  intro c hc
  have hplain : ∀ c ∈ [(nameC, (3 : UInt64)), (nameA, 7)], Plain c.1.val := by decide
  exact (hplain c hc).clean

/-! ### Keys -/

/-- The text is UTF-8, and an object whose members have these names. -/
def IsDocument (text : List UInt8) (names : List (List UInt8)) : Prop :=
  IsUtf8 text ∧ ∃ ms, parse text = some (.obj ms) ∧ ms.map Prod.fst = names

/-- The key of a record. -/
def pollName (poll : OpticsPoll) : List UInt8 := keyBytes poll.regionPrefix poll.host poll.key

/-- After a poll, a request is answered with an object that has one member for each metric, under its
key. -/
def ShowsKeys (signs : Signs) (polls : List OpticsPoll) (rest : Rest) : Prop :=
  ∃ rest' text, recordPoll polls rest = .ok rest' ∧ restGet signs rest' = .ok text ∧
    (entries rest'.current).Perm (polls.map metricOf) ∧
    IsDocument text ((entries rest'.current).map fun m => m.key.val)

/-- Some metrics, written: a document exactly if their keys are clean and UTF-8. -/
theorem isDocument_iff (signs : Signs) {metrics : List Metric} (h : ∀ m ∈ metrics, Finite m.value) :
    IsDocument (printObject (metrics.map (metricMember signs))) (metrics.map fun m => m.key.val) ↔
      ∀ m ∈ metrics, Clean m.key.val ∧ IsUtf8 m.key.val := by
  have hnames : (metrics.map (metricMember signs)).map Member.name =
      metrics.map fun m => m.key.val := by
    rw [List.map_map]
    exact List.map_congr_left fun m _ => metricMember_name signs m
  have hvalue : ∀ m ∈ metrics.map (metricMember signs), IsValue m.text m.value := by
    rw [List.forall_mem_map]
    exact fun m hm => metricMember_isValue signs (h m hm)
  have hascii : ∀ m ∈ metrics.map (metricMember signs), Ascii m.text := by
    rw [List.forall_mem_map]
    exact fun m _ => metricMember_ascii signs m
  have hparse := parse_object_iff hvalue
  rw [hnames] at hparse
  unfold IsDocument
  rw [isUtf8_printObject hascii, hparse, List.forall_mem_map, List.forall_mem_map]
  simp only [metricMember_name]
  exact ⟨fun hc m hm => ⟨hc.2 m hm, hc.1 m hm⟩, fun hc => ⟨fun m hm => (hc m hm).2,
    fun m hm => (hc m hm).1⟩⟩

theorem keys_shown (signs : Signs) {polls : List OpticsPoll} (h : ∀ p ∈ polls, Shaped p.value)
    (rest : Rest) : ∃ rest', recordPoll polls rest = .ok rest' ∧
      (entries rest'.current).Perm (polls.map metricOf) ∧
      restGet signs rest' =
        .ok (printObject ((entries rest'.current).map (metricMember signs))) := by
  obtain ⟨rest', hrecord, -, hperm, -⟩ := recordPoll_spec polls rest
  refine ⟨rest', hrecord, hperm, restGet_spec signs fun m hm => ?_⟩
  obtain ⟨p, hp, rfl⟩ := List.mem_map.mp (hperm.mem_iff.mp hm)
  exact h p hp

/-- **The metrics** come back as one object with a member for each of them, exactly if all keys are
clean and UTF-8. -/
theorem document_iff (signs : Signs) {polls : List OpticsPoll}
    (h : ∀ p ∈ polls, Shaped p.value ∧ Finite p.value) (rest : Rest) :
    ShowsKeys signs polls rest ↔ ∀ p ∈ polls, Clean (pollName p) ∧ IsUtf8 (pollName p) := by
  obtain ⟨rest1, hrecord1, hperm1, hget1⟩ := keys_shown signs (fun p hp => (h p hp).1) rest
  have hfinite : ∀ m ∈ entries rest1.current, Finite m.value := fun m hm => by
    obtain ⟨p, hp, rfl⟩ := List.mem_map.mp (hperm1.mem_iff.mp hm)
    exact (h p hp).2
  have hkeys : (∀ m ∈ entries rest1.current, Clean m.key.val ∧ IsUtf8 m.key.val) ↔
      ∀ p ∈ polls, Clean (pollName p) ∧ IsUtf8 (pollName p) := by
    simp only [hperm1.mem_iff, List.forall_mem_map]
    exact Iff.rfl
  rw [← hkeys, ← isDocument_iff signs hfinite]
  constructor
  · rintro ⟨rest', text, hrecord, hget, -, hdoc⟩
    cases hrecord.symm.trans hrecord1
    cases hget.symm.trans hget1
    exact hdoc
  · exact fun hdoc => ⟨rest1, _, hrecord1, hget1, hperm1, hdoc⟩

/-- A record of a counter in a region `a` on a host `h`. -/
def counterPoll (name : CStr) : OpticsPoll := ⟨nameH, nameA, name, .counter 3, 15, 5⟩

/-- The name `"`. -/
def nameQuote : CStr := ⟨[34], by decide⟩

/-- A lens named `"` breaks the document, although its name is accepted. -/
theorem quote_breaks : opticsSetPrefix nameA = some nameA ∧ opticsPollerSetHost nameH = some nameH ∧
    lensAllocName nameQuote = some nameQuote ∧ lensAllocName nameC = some nameC ∧
    ¬ ShowsKeys .clear [counterPoll nameC, counterPoll nameQuote] Rest.zero := by
  refine ⟨rfl, rfl, rfl, rfl, ?_⟩
  rintro ⟨rest', text, hrecord, hget, hperm, hdoc⟩
  obtain ⟨rest1, hrecord1, -, hget1⟩ := keys_shown .clear
    (show ∀ p ∈ [counterPoll nameC, counterPoll nameQuote], Shaped p.value from
      List.forall_mem_cons.mpr ⟨trivial, List.forall_mem_singleton.mpr trivial⟩) Rest.zero
  cases hrecord.symm.trans hrecord1
  cases hget.symm.trans hget1
  have hfinite : ∀ m ∈ entries rest'.current, Finite m.value := by
    intro m hm
    obtain ⟨p, hp, rfl⟩ := List.mem_map.mp (hperm.mem_iff.mp hm)
    rcases List.mem_cons.mp hp with rfl | hp
    · trivial
    · rw [List.mem_singleton.mp hp]
      trivial
  have hin : metricOf (counterPoll nameQuote) ∈ entries rest'.current :=
    hperm.mem_iff.mpr (List.mem_map_of_mem (List.mem_cons_of_mem _ List.mem_cons_self))
  have hclean := ((isDocument_iff .clear hfinite).mp hdoc _ hin).1
  exact (hclean quote (by decide)).1 rfl

/-- Two counters. -/
theorem document_iff_two : ShowsKeys .clear [counterPoll nameC, counterPoll nameA] Rest.zero := by
  have hplain : ∀ p ∈ [counterPoll nameC, counterPoll nameA], Plain (pollName p) := by decide
  refine (document_iff .clear ?_ _).mpr fun p hp => ⟨(hplain p hp).clean, (hplain p hp).ascii.isUtf8⟩
  exact List.forall_mem_cons.mpr ⟨⟨trivial, trivial⟩, List.forall_mem_singleton.mpr ⟨trivial, trivial⟩⟩

end Optics.RestDocument
