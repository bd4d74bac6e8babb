import Optics.Polling
import Optics.Lib.ByteOrder
import Optics.Utils.Buffers
import Optics.Utils.Formats

/-! # The REST backend

`backend_rest.c`. The callbacks of a poll fill a table, which is sorted and takes the place of the one
that is shown when the poll is done; a request writes the table that is shown into a buffer.

The text of a request is an object of JSON as far as its shape goes (`restGet_spec`): a member for
each metric, with the key of the metric as it is for a name. -/

namespace Optics.BackendRest

open Optics.Base Optics.Lenses Optics.LensSlots Optics.LensDist Optics.LensQuantile Optics.LensReads
open Optics.Utils.Keys Optics.Utils.Buffers Optics.Utils.Formats
open Optics.Lib.Sorting Optics.Lib.ByteOrder Optics.Lib.JsonText
open Optics.Polling

/-! ### Tables -/

/-- `struct metric`, with the type in the value. -/
structure Metric where
  key : CStr
  value : OpticsPollValue

def metricsInitCap : ℕ := 128

theorem metricsInitCap_pos : 0 < metricsInitCap := by decide

/-- `struct metrics`: the entries of `data`, for which there is room in an array of `cap`. -/
structure Metrics where
  cap : ℕ
  data : List Metric
  pos : 0 < cap
  fits : data.length ≤ cap

/-- A table that has just been allocated. -/
def Metrics.init : Metrics := ⟨metricsInitCap, [], metricsInitCap_pos, Nat.zero_le _⟩

/-- The table with room for another entry. -/
def Metrics.grow (metrics : Metrics) : Metrics :=
  if metrics.data.length = metrics.cap then
    ⟨metrics.cap * 2, metrics.data, Nat.mul_pos metrics.pos (by decide),
      metrics.fits.trans (Nat.le_mul_of_pos_right _ (by decide))⟩
  else metrics

theorem Metrics.grow_data (metrics : Metrics) : metrics.grow.data = metrics.data := by
  unfold Metrics.grow
  split_ifs <;> rfl

theorem Metrics.grow_room (metrics : Metrics) : metrics.grow.data.length < metrics.grow.cap := by
  have hpos := metrics.pos
  have hfits := metrics.fits
  unfold Metrics.grow
  split_ifs with h
  · dsimp only
    omega
  · omega

/-- `metrics_append`. -/
def metricsAppend (metrics : Option Metrics) (poll : OpticsPoll) : Outcome Metrics := do
  let metrics := (metrics.getD .init).grow
  let key ← pollKey poll.regionPrefix poll.host poll.key
  let metric : Metric := ⟨key.str.take opticsNameMaxLen, poll.value⟩
  .ok ⟨metrics.cap, metrics.data ++ [metric], metrics.pos, by
    rw [List.length_append]
    exact Metrics.grow_room _⟩

/-- `metrics_cmp`. -/
def metricsCmp (lhs rhs : Metric) : ℤ := strncmp opticsNameMaxLen lhs.key.val rhs.key.val

/-- `metrics_sort`. -/
def metricsSort (metrics : Metrics) : Outcome Metrics :=
  match h : mergeSort (fun lhs rhs => .ok (metricsCmp lhs rhs)) metrics.data with
  | .ok data => .ok ⟨metrics.cap, data, metrics.pos, (mergeSort_perm h).length_eq ▸ metrics.fits⟩
  | .error e => .error e

/-! ### The backend -/

/-- `struct rest`: a table is `NULL` or there. One thread is at work, so that the lock is free. -/
structure Rest where
  current : Option Metrics
  build : Option Metrics

/-- `calloc(1, sizeof(struct rest))`. -/
def Rest.zero : Rest := ⟨none, none⟩

/-- The entries of a table. -/
def entries (metrics : Option Metrics) : List Metric := (metrics.map Metrics.data).getD []

/-- `swap_tables`. -/
def swapTables (rest : Rest) : Outcome Rest :=
  match rest.build with
  | none => .ok ⟨none, none⟩
  | some build => do
    let build ← metricsSort build
    .ok ⟨some build, none⟩

/-- `enum optics_poll_type`. -/
inductive OpticsPollType where
  | pollBegin | pollMetric | pollDone

/-- `rest_dump`. -/
def restDump (rest : Rest) (type : OpticsPollType) (poll : Option OpticsPoll) : Outcome Rest :=
  match type, poll with
  | .pollBegin, _ => .ok { rest with build := none }
  | .pollDone, _ => swapTables rest
  | .pollMetric, none => .error .segv
  | .pollMetric, some poll => do
    let build ← metricsAppend rest.build poll
    .ok { rest with build := some build }

/-- The records of a poll, one after the other. -/
def recordMetrics : List OpticsPoll → Rest → Outcome Rest
  | [], rest => .ok rest
  | poll :: polls, rest => do
    let rest ← restDump rest .pollMetric (some poll)
    recordMetrics polls rest

/-- What `optics_poller_poll_at` tells the backend about a poll. -/
def recordPoll (polls : List OpticsPoll) (rest : Rest) : Outcome Rest := do
  let rest ← restDump rest .pollBegin none
  let rest ← recordMetrics polls rest
  restDump rest .pollDone none

/-! ### Texts -/

/-- `below` -/
def belowName : List UInt8 := [98, 101, 108, 111, 119]

/-- `above` -/
def aboveName : List UInt8 := [97, 98, 111, 118, 101]

/-- `bucket_` -/
def bucketText : List UInt8 := [98, 117, 99, 107, 101, 116, 95]

/-- `p50` -/
def p50Name : List UInt8 := [112, 53, 48]

/-- `p90` -/
def p90Name : List UInt8 := [112, 57, 48]

/-- `p99` -/
def p99Name : List UInt8 := [112, 57, 57]

/-- `max` -/
def maxName : List UInt8 := [109, 97, 120]

/-- `count` -/
def countName : List UInt8 := [99, 111, 117, 110, 116]

/-- `value` -/
def valueName : List UInt8 := [118, 97, 108, 117, 101]

/-- `-` -/
def dash : UInt8 := 45

/-- `"%s":`, and what is printed behind it. -/
def field (name text : List UInt8) : List UInt8 := quote :: name ++ quote :: colon :: text

/-- `bucket_%lu-%lu`. -/
def bucketLabel (lo hi : UInt64) : List UInt8 := bucketText ++ (formatU lo ++ dash :: formatU hi)

/-- What a round of a loop over the buckets reads: `buckets[i]`, `buckets[i + 1]` and `counts[i]`. -/
def bucketAt (histo : OpticsHisto) (i : ℕ) : Outcome (UInt64 × UInt64 × UInt64) :=
  match histo.buckets[i]?, histo.buckets[i + 1]? with
  | some lo, some hi =>
    if h : i < opticsHistoBucketsMax then .ok (lo, hi, histo.counts ⟨i, h⟩) else .error .undefined
  | _, _ => .error .undefined

/-- The rounds of a loop over the buckets; without bounds, `buckets_len - 1` wraps. -/
def bucketRounds (histo : OpticsHisto) : Outcome ℕ :=
  if histo.buckets.length = 0 then .error .undefined else .ok (histo.buckets.length - 1)

/-- The loop over the buckets, from `i` on. -/
def writeBuckets (histo : OpticsHisto) : ℕ → ℕ → Buffer → Outcome Buffer
  | 0, _, buffer => .ok buffer
  | rounds + 1, i, buffer => do
    let (lo, hi, n) ← bucketAt histo i
    let buffer ← bufferPrintf buffer (comma :: field (bucketLabel lo hi) (formatU n))
    writeBuckets histo rounds (i + 1) buffer

/-- The sign bits of the doubles in a table, by the entry and the name that they are printed under; a
`Double` need not have its own. -/
abbrev Signs := Metric → List UInt8 → Bool

/-- All sign bits are clear. -/
def Signs.clear : Signs := fun _ _ => false

/-- `write_counter`. -/
def writeCounter (signs : Signs) (buffer : Buffer) (metric : Metric) : Outcome Buffer :=
  let printG (name : List UInt8) (d : Double) := field name (formatG (signs metric name) d)
  match metric.value with
  | .counter n => bufferPrintf buffer (field metric.key.val (formatU n))
  | .gauge bits => bufferPrintf buffer (field metric.key.val (formatG (signBit bits) (punItod bits)))
  | .dist dist => bufferPrintf buffer (field metric.key.val (openBrace ::
      (printG p50Name dist.p50 ++ comma :: (printG p90Name dist.p90 ++
        comma :: (printG p99Name dist.p99 ++ comma :: (printG maxName dist.max ++
          comma :: (field countName (formatU dist.n) ++ [closeBrace])))))))
  | .histo histo => do
    let buffer ← bufferPrintf buffer (field metric.key.val (openBrace ::
      (field belowName (formatU histo.above) ++ comma :: field aboveName (formatU histo.below))))
    let rounds ← bucketRounds histo
    let buffer ← writeBuckets histo rounds 0 buffer
    bufferPut buffer closeBrace
  | .quantile quantile => bufferPrintf buffer (field metric.key.val (openBrace ::
      (printG valueName quantile.sample ++
        comma :: (field countName (formatU quantile.count) ++ [closeBrace]))))

/-- The loop of `rest_get` over the table, from `i` on. -/
def writeMetrics (signs : Signs) : ℕ → List Metric → Buffer → Outcome Buffer
  | _, [], buffer => .ok buffer
  | i, metric :: rest, buffer => do
    let buffer ← (if i > 0 then bufferPut buffer comma else .ok buffer)
    let buffer ← writeCounter signs buffer metric
    writeMetrics signs (i + 1) rest buffer

/-- `rest_get`: the body of the response. -/
def restGet (signs : Signs) (rest : Rest) : Outcome (List UInt8) := do
  let buffer ← bufferPut Buffer.zero openBrace
  let buffer ← writeMetrics signs 0 (entries rest.current) buffer
  let buffer ← bufferPut buffer closeBrace
  .ok buffer.contents

/-! ### The members -/

/-- A member whose value is a number. -/
def natMember (name : List UInt8) (n : UInt64) : Member := ⟨name, formatU n, .num n.toNat⟩

/-- What a double is read back as, if it is finite. -/
def jsonG (sign : Bool) : Double → Json
  | .fin q => .num (numeralG sign q).value
  | _ => .null

/-- A member whose value is a double. -/
def doubleMember (name : List UInt8) (sign : Bool) (d : Double) : Member :=
  ⟨name, formatG sign d, jsonG sign d⟩

/-- The parts of a histogram: what is below, what is above, and the buckets. -/
def histoParts (histo : OpticsHisto) : List Part :=
  .below :: .above :: ((List.finRange opticsHistoBucketsMax).take (histo.buckets.length - 1)).map
    .counts

/-- The name under which the backend prints a part. -/
def partLabel (histo : OpticsHisto) : Part → List UInt8
  | .value => []
  | .below => belowName
  | .above => aboveName
  | .counts i => bucketLabel (histo.buckets.getD i 0) (histo.buckets.getD (i + 1) 0)

/-- The part whose count is printed under the name of a part. -/
def printedPart : Part → Part
  | .below => .above
  | .above => .below
  | part => part

/-- The members of the object that is printed for a value, unless it is a number; the sign bits of
its doubles are given by their names. -/
def valueMembers (signs : List UInt8 → Bool) : OpticsPollValue → Option (List Member)
  | .counter _ => none
  | .gauge _ => none
  | .dist dist => some [doubleMember p50Name (signs p50Name) dist.p50,
      doubleMember p90Name (signs p90Name) dist.p90, doubleMember p99Name (signs p99Name) dist.p99,
      doubleMember maxName (signs maxName) dist.max, natMember countName dist.n]
  | .histo histo => some ((histoParts histo).map fun part =>
      natMember (partLabel histo part) (histo.get (printedPart part)))
  | .quantile quantile =>
    some [doubleMember valueName (signs valueName) quantile.sample, natMember countName quantile.count]

/-- The member for a metric. -/
def metricMember (signs : Signs) (metric : Metric) : Member :=
  match metric.value with
  | .counter n => natMember metric.key.val n
  | .gauge bits => doubleMember metric.key.val (signBit bits) (punItod bits)
  | v =>
    let members := (valueMembers (signs metric) v).getD []
    ⟨metric.key.val, printObject members, .obj (memberValues members)⟩

/-- A histogram has 2 to 9 bounds. -/
def Shaped : OpticsPollValue → Prop
  | .histo histo => 2 ≤ histo.buckets.length ∧ histo.buckets.length ≤ opticsHistoBucketsMax + 1
  | _ => True

/-! ### Writing -/

theorem bucketAt_spec {histo : OpticsHisto} {i : ℕ} (hi : i + 1 < histo.buckets.length)
    (hi' : i < opticsHistoBucketsMax) :
    bucketAt histo i = .ok (histo.buckets.getD i 0, histo.buckets.getD (i + 1) 0,
      histo.counts ⟨i, hi'⟩) := by
  unfold bucketAt
  rw [List.getElem?_eq_getElem hi, List.getElem?_eq_getElem (Nat.lt_of_succ_lt hi),
    List.getD_eq_getElem _ _ hi, List.getD_eq_getElem _ _ (Nat.lt_of_succ_lt hi)]
  exact dif_pos hi'

/-- The text of a bucket. -/
def bucketMember (histo : OpticsHisto) (i : Fin opticsHistoBucketsMax) : Member :=
  natMember (partLabel histo (.counts i)) (histo.counts i)

theorem writeBuckets_spec {histo : OpticsHisto} (h : Shaped (.histo histo)) :
    ∀ {rounds i : ℕ} {buffer : Buffer} {s : List UInt8}, i + rounds = histo.buckets.length - 1 →
      buffer.Holds s → ∃ buffer', writeBuckets histo rounds i buffer = .ok buffer' ∧
        buffer'.Holds (s ++ (((List.finRange opticsHistoBucketsMax).take
          (histo.buckets.length - 1)).drop i).flatMap fun j => comma :: (bucketMember histo j).print)
  | 0, i, buffer, s, hi, hb => by
    refine ⟨buffer, rfl, ?_⟩
    rw [List.drop_eq_nil_of_le (by rw [List.length_take]; omega), List.flatMap_nil, List.append_nil]
    exact hb
  | rounds + 1, i, buffer, s, hi, hb => by
    obtain ⟨h2, h9⟩ := h
    have hlt : i < opticsHistoBucketsMax := by omega
    obtain ⟨b, hprint, hb'⟩ := bufferPrintf_spec hb
      (comma :: (bucketMember histo ⟨i, hlt⟩).print)
    obtain ⟨b', hrest, hb''⟩ := writeBuckets_spec ⟨h2, h9⟩
      (show i + 1 + rounds = histo.buckets.length - 1 by omega) hb'
    refine ⟨b', ?_, ?_⟩
    · rw [writeBuckets, bucketAt_spec (by omega) hlt, ok_bind]
      dsimp only
      rw [show comma :: field (bucketLabel (histo.buckets.getD i 0) (histo.buckets.getD (i + 1) 0))
        (formatU (histo.counts ⟨i, hlt⟩)) = comma :: (bucketMember histo ⟨i, hlt⟩).print from rfl,
        hprint, ok_bind, hrest]
    · have hlen : i < ((List.finRange opticsHistoBucketsMax).take
          (histo.buckets.length - 1)).length := by
        rw [List.length_take, List.length_finRange]
        omega
      rw [List.drop_eq_getElem_cons hlen, List.flatMap_cons, ← List.append_assoc]
      have hget : ((List.finRange opticsHistoBucketsMax).take (histo.buckets.length - 1))[i] =
          ⟨i, hlt⟩ := by
        rw [List.getElem_take, List.getElem_finRange]
        rfl
      rw [hget]
      exact hb''

section Writing
variable (signs : Signs)

/-- **A metric** is written as a member. -/
theorem writeCounter_spec {metric : Metric} (h : Shaped metric.value) {buffer : Buffer}
    {s : List UInt8} (hb : buffer.Holds s) :
    ∃ buffer', writeCounter signs buffer metric = .ok buffer' ∧
      buffer'.Holds (s ++ (metricMember signs metric).print) := by
  obtain ⟨key, v⟩ := metric
  cases v with
  | counter n => exact bufferPrintf_spec hb _
  | gauge bits => exact bufferPrintf_spec hb _
  | dist dist =>
    obtain ⟨b, hprint, hb'⟩ := bufferPrintf_spec hb (metricMember signs ⟨key, .dist dist⟩).print
    refine ⟨b, ?_, hb'⟩
    rw [← hprint]
    simp [writeCounter, metricMember, valueMembers, field, Member.print, printObject, commaSep,
      natMember, doubleMember]
  | quantile quantile =>
    obtain ⟨b, hprint, hb'⟩ :=
      bufferPrintf_spec hb (metricMember signs ⟨key, .quantile quantile⟩).print
    refine ⟨b, ?_, hb'⟩
    rw [← hprint]
    simp [writeCounter, metricMember, valueMembers, field, Member.print, printObject, commaSep,
      natMember, doubleMember]
  | histo histo =>
    obtain ⟨h2, h9⟩ := h
    obtain ⟨b1, hfirst, hb1⟩ := bufferPrintf_spec hb (field key.val (openBrace ::
      (field belowName (formatU histo.above) ++ comma :: field aboveName (formatU histo.below))))
    obtain ⟨b2, hloop, hb2⟩ := writeBuckets_spec ⟨h2, h9⟩ (Nat.zero_add _) hb1
    obtain ⟨b3, hlast, hb3⟩ := bufferPut_spec hb2 closeBrace
    have hrounds : bucketRounds histo = .ok (histo.buckets.length - 1) := if_neg (by omega)
    refine ⟨b3, ?_, ?_⟩
    · rw [writeCounter]
      dsimp only
      rw [hfirst, ok_bind, hrounds, ok_bind, hloop, ok_bind, hlast]
    · rw [List.drop_zero, List.append_assoc, List.append_assoc] at hb3
      convert hb3 using 2
      simp only [metricMember, valueMembers, Option.getD_some, histoParts, List.map_cons, List.map_map,
        printObject, Member.print, commaSep_cons, List.flatMap_cons, List.flatMap_map, field]
      simp [natMember, partLabel, printedPart, OpticsHisto.get, bucketMember, Member.print,
        Function.comp_def]

theorem writeMetrics_spec : ∀ {i : ℕ} {metrics : List Metric} {buffer : Buffer} {s : List UInt8},
    (∀ m ∈ metrics, Shaped m.value) → buffer.Holds s →
    ∃ buffer', writeMetrics signs i metrics buffer = .ok buffer' ∧ buffer'.Holds (s ++
      if i = 0 then commaSep (metrics.map fun m => (metricMember signs m).print)
      else metrics.flatMap fun m => comma :: (metricMember signs m).print)
  | i, [], buffer, s, _, hb => by
    refine ⟨buffer, rfl, ?_⟩
    split_ifs <;> exact (List.append_nil s).symm ▸ hb
  | i, m :: metrics, buffer, s, hm, hb => by
    obtain ⟨b1, hcomma, hb1⟩ : ∃ b1, (if i > 0 then bufferPut buffer comma else .ok buffer) = .ok b1 ∧
        b1.Holds (s ++ if i = 0 then [] else [comma]) := by
      by_cases h0 : i = 0
      · rw [if_neg (by omega), if_pos h0, List.append_nil]
        exact ⟨buffer, rfl, hb⟩
      · rw [if_pos (by omega), if_neg h0]
        exact bufferPut_spec hb comma
    obtain ⟨b2, hwrite, hb2⟩ := writeCounter_spec signs (hm m List.mem_cons_self) hb1
    obtain ⟨b3, hrest, hb3⟩ := writeMetrics_spec (i := i + 1)
      (fun x hx => hm x (List.mem_cons_of_mem _ hx)) hb2
    refine ⟨b3, ?_, ?_⟩
    · rw [writeMetrics, hcomma, ok_bind, hwrite, ok_bind, hrest]
    · rw [if_neg (Nat.succ_ne_zero i), List.append_assoc, List.append_assoc] at hb3
      convert hb3 using 2
      by_cases h0 : i = 0
      · rw [if_pos h0, if_pos h0, List.map_cons, commaSep_cons, List.flatMap_map]
        rfl
      · rw [if_neg h0, if_neg h0]
        rfl

/-- **A request** is answered with a member for each entry of the table, between braces. -/
theorem restGet_spec {rest : Rest} (h : ∀ m ∈ entries rest.current, Shaped m.value) :
    restGet signs rest = .ok (printObject ((entries rest.current).map (metricMember signs))) := by
  obtain ⟨b1, hopen, hb1⟩ := bufferPut_spec Buffer.holds_zero openBrace
  obtain ⟨b2, hloop, hb2⟩ := writeMetrics_spec signs (i := 0) h hb1
  obtain ⟨b3, hclose, hb3⟩ := bufferPut_spec hb2 closeBrace
  rw [restGet, hopen, ok_bind, hloop, ok_bind, hclose, ok_bind, hb3.contents, if_pos rfl,
    printObject, List.map_map]
  rfl

end Writing

/-! ### Filling -/

/-- The entry for a record. -/
def metricOf (poll : OpticsPoll) : Metric :=
  ⟨⟨keyBytes poll.regionPrefix poll.host poll.key, fun h => zero_notMem_join (zero_notMem_join
    poll.regionPrefix.property poll.host.property) poll.key.property (List.mem_of_mem_take h)⟩,
    poll.value⟩

/-- **A record** is put behind the entries, under its key. -/
theorem metricsAppend_spec (metrics : Option Metrics) (poll : OpticsPoll) :
    ∃ metrics', metricsAppend metrics poll = .ok metrics' ∧
      metrics'.data = entries metrics ++ [metricOf poll] := by
  obtain ⟨key, hkey, hstr⟩ := pollKey_spec ⟨0, 0, poll.host, poll.regionPrefix, 0⟩
    ⟨poll.key, .gauge 0⟩
  unfold metricsAppend
  dsimp only
  rw [hkey, ok_bind]
  refine ⟨_, rfl, ?_⟩
  have hdata : ((metrics.getD .init).grow).data = entries metrics := by
    rw [Metrics.grow_data]
    cases metrics <;> rfl
  dsimp only
  rw [hdata]
  have htake : key.str.take opticsNameMaxLen = (metricOf poll).key := by
    rw [hstr]
    refine CStr.take_of_length_le ?_
    exact (List.length_take_le _ _).trans (by decide)
  rw [htake]
  rfl

/-- **A sort** orders the entries by key. -/
theorem metricsSort_spec (metrics : Metrics) : ∃ metrics', metricsSort metrics = .ok metrics' ∧
    metrics'.data.Perm metrics.data ∧ metrics'.data.Pairwise fun a b => metricsCmp a b ≤ 0 := by
  obtain ⟨data, hsort⟩ : ∃ data, mergeSort (ε := Fault) (fun lhs rhs => .ok (metricsCmp lhs rhs))
      metrics.data = .ok data := mergeSort_ok fun x _ y _ => ⟨_, rfl⟩
  have hagrees : Agrees (ε := Fault) (fun lhs rhs => .ok (metricsCmp lhs rhs))
      (fun a b => metricsCmp a b ≤ 0) metrics.data := by
    intro x _ y _ c hc
    cases hc
    refine ⟨id, fun hpos => ?_⟩
    have := strncmp_neg opticsNameMaxLen y.key.val x.key.val
    unfold metricsCmp at hpos ⊢
    omega
  have htrans : ∀ a b c : Metric, metricsCmp a b ≤ 0 → metricsCmp b c ≤ 0 → metricsCmp a c ≤ 0 :=
    fun a b c => strncmp_trans a.key.property b.key.property c.key.property
  refine ⟨⟨metrics.cap, data, metrics.pos, (mergeSort_perm hsort).length_eq ▸ metrics.fits⟩, ?_,
    mergeSort_perm hsort, mergeSort_pairwise htrans hagrees hsort⟩
  unfold metricsSort
  split
  · rename_i heq
    cases heq.symm.trans hsort
    rfl
  · rename_i heq
    cases heq.symm.trans hsort

/-- **A finished poll** shows the table that was filled, sorted. -/
theorem swapTables_spec (rest : Rest) : ∃ rest', swapTables rest = .ok rest' ∧ rest'.build = none ∧
    (entries rest'.current).Perm (entries rest.build) ∧
    (entries rest'.current).Pairwise fun a b => metricsCmp a b ≤ 0 := by
  unfold swapTables
  rcases rest.build with _ | build
  · exact ⟨⟨none, none⟩, rfl, rfl, .refl _, .nil⟩
  · obtain ⟨build', hsort, hperm, hsorted⟩ := metricsSort_spec build
    dsimp only
    rw [hsort, ok_bind]
    exact ⟨_, rfl, rfl, hperm, hsorted⟩

theorem recordMetrics_spec : ∀ {polls : List OpticsPoll} {rest : Rest},
    ∃ rest', recordMetrics polls rest = .ok rest' ∧
      entries rest'.build = entries rest.build ++ polls.map metricOf
  | [], rest => ⟨rest, rfl, (List.append_nil _).symm⟩
  | poll :: polls, rest => by
    obtain ⟨build, happend, hdata⟩ := metricsAppend_spec rest.build poll
    obtain ⟨rest', hrest, hentries⟩ :=
      @recordMetrics_spec polls { rest with build := some build }
    refine ⟨rest', ?_, ?_⟩
    · rw [recordMetrics, restDump, happend, ok_bind, ok_bind, hrest]
    · rw [hentries, List.map_cons, List.append_cons]
      exact congrArg (· ++ polls.map metricOf) hdata

/-- **A poll** leaves a table with an entry for each of its records, in order. -/
theorem recordPoll_spec (polls : List OpticsPoll) (rest : Rest) :
    ∃ rest', recordPoll polls rest = .ok rest' ∧ rest'.build = none ∧
      (entries rest'.current).Perm (polls.map metricOf) ∧
      (entries rest'.current).Pairwise fun a b => metricsCmp a b ≤ 0 := by
  obtain ⟨rest1, hmetrics, hentries⟩ := @recordMetrics_spec polls { rest with build := none }
  obtain ⟨rest2, hswap, hbuild, hperm, hsorted⟩ := swapTables_spec rest1
  refine ⟨rest2, ?_, hbuild, ?_, hsorted⟩
  · rw [recordPoll, restDump, ok_bind, hmetrics, ok_bind, restDump, hswap]
  · rw [hentries] at hperm
    exact hperm

end Optics.BackendRest
