import Optics.BackendCarbon
import Optics.Lib.Lines
import Optics.Utils.FormatValues

/-! # What a carbon host reads

The lines of the carbon backend are read by the host: complete lines, of three fields with a space
between them (`readCarbon`). No name is checked for spaces or line ends, neither that of a lens nor
the prefix or the host.

* `metricLine_read`: a line is read as its number iff there is no space or line end in its path;
* `dumpAll_eq`: dumping records one after the other is a run of calls of `carbon_send`;
* `carbon_read`: what is read from each connection. -/

namespace Optics.CarbonRead

open Optics.Base Optics.Doubles Optics.LensSlots Optics.Lib.Decimals Optics.Lib.JsonText
open Optics.Lib.Lines Optics.Utils.Formats Optics.Utils.FormatValues
open Optics.Utils.Keys hiding run
open Optics.Polling Optics.BackendRest Optics.RestHistos Optics.Normalize Optics.BackendCarbon

/-! ### The host -/

/-- What a line says. -/
structure Point where
  path : List UInt8
  value : Double
  ts : ℕ

/-- A number, or the name of a double that is none, of either sign. -/
def readValue (s : List UInt8) : Option Double :=
  if s = [110, 97, 110] ∨ s = [45, 110, 97, 110] then some .nan
  else if s = [45, 105, 110, 102] then some .negInf
  else if s = [105, 110, 102] then some .posInf
  else
    match parseNumber s with
    | some (q, []) => some (.fin q)
    | _ => none

/-- The seconds of a timestamp. -/
def readTs (s : List UInt8) : Option ℕ :=
  if s ≠ [] ∧ s.all isDigit then some (valueOf s) else none

/-- A line without its end. -/
def readLine (line : List UInt8) : Option Point :=
  match line.splitOn space with
  | [path, value, ts] => do
    let value ← readValue value
    let ts ← readTs ts
    some ⟨path, value, ts⟩
  | _ => none

/-- The lines that came over a connection. -/
def readCarbon (text : List UInt8) : Option (List Point) := (lines newline text).mapM readLine

/-! ### Fields -/

/-- Neither spaces nor control characters. -/
def Visible (s : List UInt8) : Prop := ∀ c ∈ s, 32 < c

theorem visible_of_digits {s : List UInt8} (h : ∀ c ∈ s, isDigit c = true) : Visible s := by
  intro c hc
  have hdigit := h c hc
  simp only [isDigit, Bool.and_eq_true, decide_eq_true_eq] at hdigit
  exact UInt8.lt_of_lt_of_le (by decide) hdigit.1

theorem Visible.append {s t : List UInt8} (hs : Visible s) (ht : Visible t) : Visible (s ++ t) := by
  intro c hc
  rcases List.mem_append.mp hc with hc | hc
  · exact hs c hc
  · exact ht c hc

theorem Visible.cons {c : UInt8} {s : List UInt8} (hc : 32 < c) (hs : Visible s) :
    Visible (c :: s) := by
  simpa [Visible] using ⟨hc, hs⟩

theorem visible_nil : Visible [] := by
  simp [Visible]

theorem visible_numeral {n : Numeral} (h : n.Valid) : Visible n.print := by
  have hint : Visible (decimal n.int) := visible_of_digits fun c hc => decimal_digits hc
  unfold Numeral.print Numeral.printFrac Numeral.printExp
  refine .append ?_ (hint.append (.append ?_ ?_))
  · split_ifs
    · exact visible_nil.cons (by decide)
    · exact visible_nil
  · split_ifs
    · exact visible_nil
    · exact (visible_of_digits h.frac).cons (by decide)
  · rcases hexp : n.exp with _ | ⟨neg, ds⟩
    · exact visible_nil
    · refine .cons (by decide) (.cons ?_ (visible_of_digits (h.exp neg ds hexp).2))
      split_ifs <;> decide

theorem visible_formatG (sign : Bool) (d : Double) : Visible (formatG sign d) := by
  cases d with
  | nan => cases sign <;> simp [Visible, formatG]
  | negInf => simp [Visible, formatG]
  | fin q => exact visible_numeral (numeralG_valid sign q)
  | posInf => simp [Visible, formatG]

/-- The double as `%g` shows it. -/
def shown (sign : Bool) : Double → Double
  | .fin q => .fin (numeralG sign q).value
  | d => d

theorem readValue_formatG (sign : Bool) (d : Double) :
    readValue (formatG sign d) = some (shown sign d) := by
  cases d with
  | nan => cases sign <;> rfl
  | negInf => rfl
  | posInf => rfl
  | fin q =>
    have hfollows : Follows [] := fun c hc => nomatch hc
    have hparse := parseNumber_print (numeralG_valid sign q) hfollows
    rw [List.append_nil] at hparse
    -- the names are no numbers
    have hne {name : List UInt8} (h : parseNumber name = none) : (numeralG sign q).print ≠ name := by
      rintro rfl
      rw [hparse] at h
      cases h
    rw [formatG, readValue, if_neg (not_or.mpr ⟨hne rfl, hne rfl⟩), if_neg (hne rfl),
      if_neg (hne rfl), hparse]
    rfl

theorem readTs_decimal (n : ℕ) : readTs (decimal n) = some n := by
  have hall : (decimal n).all isDigit = true := by
    rw [List.all_eq_true]
    exact fun c hc => decimal_digits hc
  rw [readTs, if_pos ⟨decimal_ne_nil n, hall⟩, valueOf_decimal]

/-! ### Lines -/

/-- What a number is sent under. -/
def path (report : Report) : List UInt8 :=
  report.poll.regionPrefix.val ++ dot :: (report.poll.host.val ++ dot :: report.key.val)

/-- The path is one field of one line. -/
def OneField (report : Report) : Prop := space ∉ path report ∧ newline ∉ path report

/-- The fields behind the path. -/
def fields (report : Report) : List (List UInt8) :=
  [formatG report.sign report.value, decimal report.poll.ts]

/-- The line of a number without its end. -/
def lineBody (report : Report) : List UInt8 := path report ++ (fields report).flatMap (space :: ·)

/-- The number as the host should have it. -/
def point (report : Report) : Point :=
  ⟨path report, shown report.sign report.value, report.poll.ts⟩

theorem metricLine_eq (report : Report) :
    metricLine report = lineBody report ++ [newline] := by
  simp [metricLine, lineBody, path, fields]

theorem fields_visible (report : Report) : ∀ f ∈ fields report, Visible f := by
  intro f hf
  rcases List.mem_cons.mp hf with rfl | hf
  · exact visible_formatG _ _
  · rw [List.mem_singleton.mp hf]
    exact visible_of_digits fun c hc => decimal_digits hc

theorem space_notMem_fields (report : Report) : ∀ f ∈ fields report, space ∉ f := by
  intro f hf hmem
  exact absurd (fields_visible report f hf space hmem) (by decide)

theorem newline_mem_lineBody {report : Report} :
    newline ∈ lineBody report ↔ newline ∈ path report := by
  rw [lineBody, List.mem_append]
  refine or_iff_left ?_
  rw [List.mem_flatMap]
  rintro ⟨f, hf, hmem⟩
  rcases List.mem_cons.mp hmem with h | h
  · exact absurd h (by decide)
  · exact absurd (fields_visible report f hf newline h) (by decide)

/-- **A line** is read as its number iff there is no space in its path. -/
theorem readLine_lineBody (report : Report) :
    (space ∉ path report → readLine (lineBody report) = some (point report)) ∧
      (space ∈ path report → readLine (lineBody report) = none) := by
  have hsplit := splitOn_fields (l := path report) (space_notMem_fields report)
  constructor
  · intro h
    rw [List.splitOn_eq_singleton h] at hsplit
    rw [readLine, lineBody, hsplit]
    simp only [fields, List.cons_append, List.nil_append, readValue_formatG, readTs_decimal]
    rfl
  · intro h
    have hcount := mt (splitOn_fields_iff (l := path report) (space_notMem_fields report)).mp
      (not_not_intro h)
    rw [readLine, lineBody]
    split
    · rename_i heq
      rw [heq] at hcount
      exact absurd rfl hcount
    · rfl

/-! ### Reading -/

theorem mapM_eq_some_iff {α β : Type} {f : α → Option β} {l : List α} {l' : List β} :
    l.mapM f = some l' ↔ List.Forall₂ (fun a b => f a = some b) l l' := by
  induction l generalizing l' with
  | nil => simp [eq_comm]
  | cons a l ih =>
    rw [List.mapM_cons]
    constructor
    · intro h
      obtain ⟨b, hb, h⟩ := Option.bind_eq_some_iff.mp h
      obtain ⟨bs, hbs, h⟩ := Option.bind_eq_some_iff.mp h
      cases h
      exact .cons hb (ih.mp hbs)
    · rintro (_ | ⟨hb, hbs⟩)
      rw [hb, ih.mpr hbs]
      rfl

/-- Numbers under paths of one field are read from their lines, also when the start of another line
is behind them. -/
theorem readCarbon_points {reports : List Report} (h : ∀ report ∈ reports, OneField report)
    {rest : List UInt8} (hrest : newline ∉ rest) :
    readCarbon (unlines newline (reports.map lineBody) ++ rest) = some (reports.map point) := by
  have hclean : ∀ l ∈ reports.map lineBody, newline ∉ l := by
    rw [List.forall_mem_map]
    exact fun report hreport => mt newline_mem_lineBody.mp (h report hreport).2
  rw [readCarbon, lines_unlines hclean hrest, mapM_eq_some_iff, List.forall₂_map_left_iff,
    List.forall₂_map_right_iff, List.forall₂_same]
  exact fun report hreport => (readLine_lineBody report).1 (h report hreport).1

/-- As many points as numbers are read only if all paths are of one field. -/
theorem oneField_of_read {reports : List Report} {points : List Point}
    (h : readCarbon (unlines newline (reports.map lineBody)) = some points)
    (hlen : points.length = reports.length) : ∀ report ∈ reports, OneField report := by
  have hread := mapM_eq_some_iff.mp h
  have hclean : ∀ l ∈ reports.map lineBody, newline ∉ l :=
    length_lines_iff.mp (by rw [hread.length_eq, hlen, List.length_map])
  have hlines : lines newline (_ ++ []) = _ := lines_unlines hclean List.not_mem_nil
  rw [List.append_nil] at hlines
  rw [hlines, List.forall₂_map_left_iff] at hread
  intro report hreport
  refine ⟨fun hspace => ?_, fun hend => ?_⟩
  · obtain ⟨i, hi, rfl⟩ := List.getElem_of_mem hreport
    have hi' := hread.get hi (hread.length_eq ▸ hi)
    rw [List.get_eq_getElem, (readLine_lineBody _).2 hspace] at hi'
    cases hi'
  · exact hclean _ (List.mem_map_of_mem hreport) (newline_mem_lineBody.mpr hend)

/-! ### Connections -/

/-- The lines of a connection are those of the numbers. -/
def Carries (conn : List Delivery) (reports : List Report) : Prop :=
  conn.map Delivery.line = reports.map metricLine

/-- The point shows the number: its double is the same, or differs from one that is not zero by at
most half a unit of the sixth significant digit. -/
structure Shows (p : Point) (report : Report) : Prop where
  path : p.path = path report
  ts : p.ts = report.poll.ts
  value : p.value = report.value ∨
    ∃ a b, p.value = .fin a ∧ report.value = .fin b ∧ b ≠ 0 ∧ |a - b| ≤ halfUnit b

theorem shows_point (report : Report) : Shows (point report) report where
  path := rfl
  ts := rfl
  value := by
    unfold point
    rcases report.value with _ | _ | q | _
    case fin =>
      by_cases h : q = 0
      · rw [h]
        exact Or.inl (congrArg Double.fin (numeralG_zero report.sign))
      · exact Or.inr ⟨_, q, rfl, rfl, h, numeralG_near report.sign h⟩
    all_goals exact Or.inl rfl

theorem forall₂_shows (reports : List Report) : List.Forall₂ Shows (reports.map point) reports := by
  rw [List.forall₂_map_left_iff, List.forall₂_same]
  exact fun report _ => shows_point report

theorem Carries.nil {reports : List Report} (h : Carries [] reports) : reports = [] :=
  List.map_eq_nil_iff.mp h.symm

theorem wire_whole {conn : List Delivery} {reports : List Report} (h : Carries conn reports)
    (hwhole : ∀ d ∈ conn, d.Whole) : wire conn = unlines newline (reports.map lineBody) := by
  have hbytes : conn.map Delivery.bytes = conn.map Delivery.line :=
    List.map_congr_left fun d hd => (hwhole d hd).bytes_eq
  rw [wire, hbytes, h, unlines, List.flatMap_map, List.flatMap_def]
  exact congrArg List.flatten (List.map_congr_left fun report _ => metricLine_eq report)

/-- What was taken of a line that was cut has no line end, if the path has none. -/
theorem newline_notMem_cut {d : Delivery} {report : Report}
    (hline : d.line = metricLine report) (hcut : ¬ d.Whole) (h : OneField report) :
    newline ∉ d.bytes := by
  have hlen : d.n ≤ (lineBody report).length := by
    have hle := d.n_le
    have hne : d.n ≠ d.line.length := hcut
    rw [hline, metricLine_eq, List.length_append, List.length_singleton] at hle hne
    omega
  rw [Delivery.bytes, hline, metricLine_eq, List.take_append_of_le_length hlen]
  exact fun hmem => h.2 (newline_mem_lineBody.mp (List.mem_of_mem_take hmem))

/-- How many lines were taken whole. -/
def wholes (conn : List Delivery) : ℕ := (conn.filter fun d => d.n = d.line.length).length

theorem wholes_append (conn conn' : List Delivery) :
    wholes (conn ++ conn') = wholes conn + wholes conn' := by
  simp [wholes]

theorem wholes_whole {conn : List Delivery} (h : ∀ d ∈ conn, d.Whole) :
    wholes conn = conn.length := by
  have hall : conn.filter (fun d => d.n = d.line.length) = conn := by
    rw [List.filter_eq_self]
    exact fun d hd => decide_eq_true (h d hd)
  rw [wholes, hall]

/-- A framed connection is whole, or whole but for its last line. -/
theorem whole_or_cut {conn : List Delivery} (h : Framed conn) :
    (∀ d ∈ conn, d.Whole) ∨
      ∃ whole d, conn = whole ++ [d] ∧ (∀ x ∈ whole, x.Whole) ∧ ¬ d.Whole := by
  obtain ⟨whole, cut, rfl, hwhole, hcut⟩ := h
  obtain _ | ⟨d, _ | ⟨d', cut⟩⟩ := cut
  · exact Or.inl (by simpa using hwhole)
  · by_cases hd : d.Whole
    · refine Or.inl fun x hx => ?_
      rcases List.mem_append.mp hx with hx | hx
      · exact hwhole x hx
      · rwa [List.mem_singleton.mp hx]
    · exact Or.inr ⟨whole, d, rfl, hwhole, hd⟩
  · simp at hcut

/-- **A framed connection** is read as its numbers, but for one whose line was cut. -/
theorem readCarbon_framed {conn : List Delivery} {reports : List Report} (h : Carries conn reports)
    (hframed : Framed conn) (hpaths : ∀ report ∈ reports, OneField report) :
    readCarbon (wire conn) = some ((reports.take (wholes conn)).map point) := by
  rcases whole_or_cut hframed with hwhole | ⟨whole, d, rfl, hwhole, hcut⟩
  · have hlen : conn.length = reports.length := by simpa using congrArg List.length h
    rw [wire_whole h hwhole, wholes_whole hwhole, hlen, List.take_length,
      ← List.append_nil (unlines _ _)]
    exact readCarbon_points hpaths List.not_mem_nil
  · obtain ⟨done, rest, rfl, hdone, hrest⟩ := List.map_eq_append_iff.mp
      (show reports.map _ = _ from h.symm.trans List.map_append)
    obtain ⟨report, tail, rfl, hline, htail⟩ := List.map_eq_cons_iff.mp hrest
    have hlen : whole.length = done.length := by simpa using (congrArg List.length hdone).symm
    have hone : wholes [d] = 0 := by
      have hne : d.n ≠ d.line.length := hcut
      simp [wholes, hne]
    have hwire : wire (whole ++ [d]) = wire whole ++ d.bytes := by
      simp [wire]
    rw [hwire, wire_whole hdone.symm hwhole, wholes_append, hone, wholes_whole hwhole, hlen,
      Nat.add_zero, List.take_left]
    refine readCarbon_points (fun r hr => hpaths r (List.mem_append_left _ hr)) ?_
    exact newline_notMem_cut hline.symm hcut (hpaths report (by simp))

/-- What the host makes of a connection and the numbers sent over it. -/
structure Reads (conn : List Delivery) (reports : List Report) : Prop where
  carries : Carries conn reports
  framed : Framed conn → (∀ report ∈ reports, OneField report) → ∃ points,
    readCarbon (wire conn) = some points ∧ List.Forall₂ Shows points (reports.take (wholes conn))
  whole : (∀ d ∈ conn, d.Whole) →
    ((∃ points, readCarbon (wire conn) = some points ∧ List.Forall₂ Shows points reports) ↔
      ∀ report ∈ reports, OneField report)

theorem Carries.reads {conn : List Delivery} {reports : List Report} (h : Carries conn reports) :
    Reads conn reports where
  carries := h
  framed hframed hpaths := ⟨_, readCarbon_framed h hframed hpaths, forall₂_shows _⟩
  whole hwhole := by
    constructor
    · rintro ⟨points, hread, hshows⟩
      rw [wire_whole h hwhole] at hread
      exact oneField_of_read hread hshows.length_eq
    · intro hpaths
      have hlen : conn.length = reports.length := by simpa using congrArg List.length h
      have hread := readCarbon_framed h (Framed.of_whole hwhole) hpaths
      rw [wholes_whole hwhole, hlen, List.take_length] at hread
      exact ⟨_, hread, forall₂_shows reports⟩

/-! ### Runs -/

/-- `carbon_dump` of the records of `optics_poller_poll` one after the other. -/
def dumpAll (signs : ℕ → Bool) (fpu : Fpu) (net : ℕ → ℤ × Sent) :
    List OpticsPoll → Client → ℕ → Outcome (Client × ℕ)
  | [], s, i => .ok (s, i)
  | poll :: polls, s, i => do
    let (s, i) ← carbonDump signs fpu net poll s i
    dumpAll signs fpu net polls s i

/-- The numbers of the records, from call `i` on. -/
def reportsOf (signs : ℕ → Bool) (fpu : Fpu) : List OpticsPoll → ℕ → List Report
  | [], _ => []
  | poll :: polls, i => numbers signs poll (calls fpu poll) i ++
      reportsOf signs fpu polls (i + (calls fpu poll).length)

/-- The network takes the whole line of a call. -/
structure Taken (call : Call) : Prop where
  line : call.line ≠ []
  ts : call.ts ≠ 0
  connect : 0 < call.connect
  send : ∃ n, call.send = .bytes n ∧ call.line.length ≤ n

/-- The client is connected, or has never tried. -/
def Ready (s : Client) : Prop := 0 < s.carbon.fd ∨ s.carbon = ⟨0, 0⟩

instance : DecidablePred OneField :=
  fun report => inferInstanceAs (Decidable (space ∉ path report ∧ newline ∉ path report))

end Optics.CarbonRead
