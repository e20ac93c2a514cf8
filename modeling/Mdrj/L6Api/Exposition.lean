import Mdrj.Core.LineFormat
import Mdrj.L4Node.HourlyStatus
import Mdrj.L4Node.Peers
import Mdrj.L1Encoding.Codec
import Mdrj.L3Store.Storage

/-!
# The metrics page

`/metrics/prometheus` writes the figures of the node as lines: a name, labels
in quotes, a value. The labels hold texts from outside: the kinds of events,
the names of peers, the reason why a collector dropped an event.

Results:
* `renderSeries_injective`: rendered series are told apart by their text, whatever
  the values of their labels are.
* `metrics_page_lossless`: the text of the page fails exactly when the kind of an
  event cannot be looked up; its first fourteen figures are written as
  `render_series` writes them exactly when the node id has no quote, no backslash
  and no line end; and of such nodes the page tells all names, labels and values.

Left out: the encoding of the answer, which refuses a text with a lone surrogate.
-/
namespace Mdrj.L6
open Mdrj.Core Mdrj.L1 Mdrj.L3 Mdrj.L4

/-! ## Series -/

/-- A Python number that is written. -/
inductive MetricNumber where
  | int (n : ℤ)
  | float (x : Flt)

/-- `str(x)` of a float. -/
def floatText : Flt → String
  | .nan => "nan"
  | .negInf => "-inf"
  | .posInf => "inf"
  | x => x.token

def MetricNumber.text : MetricNumber → String
  | .int n => toString n
  | .float x => floatText x

/-- `float(n)` of a count; none comes near 2^1024, where it raises. -/
def asFloat (n : ℤ) : MetricNumber := .float (.ofRat n)

/-- mirrors mdrj/prometheus_extras.py:32-35 -/
structure MetricSample where
  labels : Dict String String
  value : MetricNumber

/-- mirrors mdrj/prometheus_extras.py:38-43 -/
structure MetricSeries where
  name : String
  type : String
  help : String
  samples : List MetricSample

/-- `text.replace(c, word)` of one sign. -/
def replaceSign (c : Char) (word text : List Char) : List Char :=
  text.flatMap fun d => if d = c then word else [d]

/-- mirrors mdrj/prometheus_extras.py:46-48 -/
def esc (value : String) : List Char :=
  replaceSign '\n' ['\\', 'n'] (replaceSign '"' ['\\', '"'] (replaceSign '\\' ['\\', '\\'] value.toList))

/-- mirrors mdrj/prometheus_extras.py:61 -/
def labelText (pair : String × String) : List Char :=
  pair.1.toList ++ '=' :: '"' :: (esc pair.2 ++ ['"'])

/-- mirrors mdrj/prometheus_extras.py:59-64 -/
def sampleLine (name : String) (commonItems : Dict String String) (sample : MetricSample) : List Char :=
  let labelPairs := commonItems ++ sample.labels
  if labelPairs ≠ [] then
    name.toList ++ '\x7b' :: (commaSeparated (labelPairs.map labelText) ++ '\x7d' :: ' ' :: sample.value.text.toList)
  else name.toList ++ ' ' :: sample.value.text.toList

def typeLine (name type : String) : List Char := "# TYPE ".toList ++ name.toList ++ ' ' :: type.toList

def seriesLines (commonItems : Dict String String) (serie : MetricSeries) : List (List Char) :=
  ("# HELP ".toList ++ serie.name.toList ++ ' ' :: serie.help.toList) :: typeLine serie.name serie.type ::
    serie.samples.map (sampleLine serie.name commonItems)

/-- `"\n".join(lines) + ("\n" if lines else "")`. -/
def linesText (lines : List (List Char)) : List Char :=
  List.intercalate ['\n'] lines ++ if lines.isEmpty then [] else ['\n']

/-- mirrors mdrj/prometheus_extras.py:51-65 -/
def renderSeries (series : List MetricSeries) (commonLabels : Dict String String) : List Char :=
  linesText (series.flatMap (seriesLines commonLabels))

/-! ## Reading the text

That the lines can be read again, from the left, is why the text loses nothing. -/

/-- A line of the page, as it is meant. -/
inductive MetricLine where
  | help (name text : String)
  | type (name kind : String)
  | sample (name : String) (labels : Dict String String) (value : String)
  deriving DecidableEq

/-- The escapes of a label value. -/
def labelEscaping : Escaping Char where
  mark := '\\'
  close := '"'
  code c := if c = '\\' then some '\\' else if c = '"' then some '"' else if c = '\n' then some 'n' else none
  decode c := if c = '\\' then some '\\' else if c = '"' then some '"' else if c = 'n' then some '\n' else none
  mark_coded := by decide
  close_coded := by decide
  decodes c letter h := by
    split at h
    · subst c; cases h; rfl
    · split at h
      · subst c; cases h; rfl
      · split at h
        · subst c; cases h; rfl
        · cases h

def readLabel (text : List Char) : Option ((String × String) × List Char) :=
  match splitAt? '=' text with
  | some (key, '"' :: rest) =>
    (labelEscaping.readEscaped rest).map fun p => ((String.ofList key, String.ofList p.1), p.2)
  | _ => none

def nameSign (c : Char) : Bool := c ≠ ' ' && c ≠ '\x7b'

def readSample (line : List Char) : Option MetricLine :=
  let name := String.ofList (line.takeWhile nameSign)
  match line.dropWhile nameSign with
  | c :: rest =>
    if c = ' ' then some (.sample name [] (String.ofList rest))
    else match readItems readLabel ',' '\x7d' rest.length rest with
      | some (labels, ' ' :: value) => some (.sample name labels (String.ofList value))
      | _ => none
  | [] => none

def readComment (line : List Char) : Option MetricLine := do
  let (_, rest) ← splitAt? ' ' line
  let (keyword, rest) ← splitAt? ' ' rest
  let (name, rest) ← splitAt? ' ' rest
  if keyword = "HELP".toList then some (.help (String.ofList name) (String.ofList rest))
  else if keyword = "TYPE".toList then some (.type (String.ofList name) (String.ofList rest))
  else none

def readLine (line : List Char) : Option MetricLine :=
  if line.head? = some '#' then readComment line else readSample line

/-- The lines of a page, if it can be read. -/
def readText (text : List Char) : Option (List MetricLine) := readAllLines '\n' readLine text

/-- What a series says. -/
def MetricSeries.meant (commonItems : Dict String String) (serie : MetricSeries) : List MetricLine :=
  .help serie.name serie.help :: .type serie.name serie.type ::
    serie.samples.map fun sample => .sample serie.name (commonItems ++ sample.labels) sample.value.text

/-! ## The series are read back -/

def plainSign (c : Char) : Prop := c ≠ ' ' ∧ c ≠ '\x7b' ∧ c ≠ '\n' ∧ c ≠ '#'

instance (c : Char) : Decidable (plainSign c) := inferInstanceAs (Decidable (_ ∧ _))

/-- A name ends before a blank or a brace. -/
def PlainName (name : String) : Prop := ∀ c ∈ name.toList, plainSign c

def PlainKey (key : String) : Prop := ∀ c ∈ key.toList, c ≠ '=' ∧ c ≠ '\n'

def OneLine (text : String) : Prop := '\n' ∉ text.toList

instance (key : String) : Decidable (PlainKey key) := List.decidableBAll _ key.toList

/-- Nothing in the series but the values of its labels can be mistaken for
another part of its lines. -/
structure MetricSeries.Plain (serie : MetricSeries) : Prop where
  name : PlainName serie.name
  type : OneLine serie.type
  help : OneLine serie.help
  keys : ∀ sample ∈ serie.samples, ∀ pair ∈ sample.labels, PlainKey pair.1

theorem replaceSign_append (c : Char) (word a b : List Char) :
    replaceSign c word (a ++ b) = replaceSign c word a ++ replaceSign c word b := List.flatMap_append

/-- The three replacements one after the other are the escapes. -/
theorem esc_eq (value : String) : esc value = labelEscaping.escape value.toList := by
  unfold esc Escaping.escape
  induction value.toList with
  | nil => rfl
  | cons c text ih =>
    have hcons : ∀ (d : Char) (word : List Char), replaceSign d word (c :: text) =
        (if c = d then word else [c]) ++ replaceSign d word text := fun d word => List.flatMap_cons
    rw [hcons, replaceSign_append, replaceSign_append, ih, List.flatMap_cons]
    congr 1
    unfold Escaping.word labelEscaping
    dsimp only
    by_cases hmark : c = '\\'
    · subst c; rfl
    · by_cases hquote : c = '"'
      · subst c; rfl
      · by_cases hend : c = '\n'
        · subst c; rfl
        · simp [replaceSign, hmark, hquote, hend]

theorem not_mem_esc (value : String) : '\n' ∉ esc value := by
  rw [esc_eq]
  refine labelEscaping.not_mem_escape (by decide) (by decide) (fun d => ?_) _
  unfold labelEscaping
  dsimp only
  split
  · decide
  · split
    · decide
    · split
      · decide
      · decide

theorem readLabel_key {key : List Char} (hkey : '=' ∉ key) (rest : List Char) :
    readLabel (key ++ '=' :: '"' :: rest) =
      (labelEscaping.readEscaped rest).map fun p => ((String.ofList key, String.ofList p.1), p.2) := by
  unfold readLabel
  rw [splitAt?_append hkey]
  rfl

theorem readLabel_labelText {pair : String × String} (hkey : PlainKey pair.1) (rest : List Char) :
    readLabel (labelText pair ++ rest) = some (pair, rest) := by
  unfold labelText
  rw [List.append_assoc, List.cons_append, List.cons_append, List.append_assoc, List.singleton_append,
    readLabel_key (fun h => (hkey '=' h).1 rfl), esc_eq]
  have hread := labelEscaping.readEscaped_escape (by decide) pair.2.toList rest
  change (labelEscaping.readEscaped (labelEscaping.escape pair.2.toList ++ labelEscaping.close :: rest)).map _ = _
  rw [hread]
  simp

theorem not_mem_labelText {pair : String × String} (hkey : PlainKey pair.1) : '\n' ∉ labelText pair := by
  unfold labelText
  simp only [List.mem_append, List.mem_cons, not_or]
  exact ⟨fun h => (hkey '\n' h).2 rfl, by decide, by decide, not_mem_esc pair.2, by simp⟩

/-! ### Values -/

/-- The signs of the text of a number. -/
def numberSign (c : Char) : Bool := c.isDigit || c ∈ ['.', '-', '+', 'e', 'n', 'a', 'i', 'f']

theorem numberSign_toDigits (n : ℕ) : ∀ c ∈ Nat.toDigits 10 n, numberSign c = true := by
  intro c hc
  unfold numberSign
  rw [Nat.isDigit_of_mem_toDigits (by decide) (by decide) hc]
  rfl

theorem numberSign_toString (n : ℕ) : ∀ c ∈ (toString n).toList, numberSign c = true := by
  rw [Nat.toString_eq_repr, Nat.toList_repr]
  exact numberSign_toDigits n

theorem numberSign_reprPos (q : ℚ) : ∀ c ∈ (Flt.reprPos q).toList, numberSign c = true := by
  have htake : ∀ n k : ℕ, ∀ c ∈ (toString n).toList.take k, numberSign c = true :=
    fun n k c h => numberSign_toString n c (List.mem_of_mem_take h)
  have hdrop : ∀ n k : ℕ, ∀ c ∈ (toString n).toList.drop k, numberSign c = true :=
    fun n k c h => numberSign_toString n c (List.mem_of_mem_drop h)
  have hzeros : ∀ n : ℕ, ∀ c ∈ List.replicate n '0', numberSign c = true := fun n c h => by
    rw [List.eq_of_mem_replicate h]
    rfl
  unfold Flt.reprPos
  dsimp only
  split
  · split
    · rw [String.toList_ofList, List.forall_mem_append, List.forall_mem_append]
      exact ⟨⟨List.all_eq_true.1 rfl, hzeros _⟩, numberSign_toString _⟩
    · split
      · rw [String.toList_ofList, List.forall_mem_append, List.forall_mem_append]
        exact ⟨⟨numberSign_toString _, hzeros _⟩, List.all_eq_true.1 rfl⟩
      · rw [String.toList_ofList, List.forall_mem_append, List.forall_mem_append]
        exact ⟨⟨htake _ _, List.all_eq_true.1 rfl⟩, hdrop _ _⟩
  · rw [String.toList_ofList, List.forall_mem_append, List.forall_mem_append, List.forall_mem_append]
    refine ⟨⟨⟨htake _ _, ?_⟩, ?_⟩, ?_⟩
    · split
      · exact fun c hc => absurd hc List.not_mem_nil
      · rw [List.forall_mem_cons]
        exact ⟨rfl, hdrop _ _⟩
    · rw [List.forall_mem_cons, List.forall_mem_singleton]
      refine ⟨rfl, ?_⟩
      split
      · rfl
      · rfl
    · split
      · rw [List.forall_mem_cons]
        exact ⟨rfl, numberSign_toString _⟩
      · exact numberSign_toString _

theorem numberSign_token (q : ℚ) : ∀ c ∈ (Flt.token (.fin q)).toList, numberSign c = true := by
  unfold Flt.token
  dsimp only
  split
  · exact List.all_eq_true.1 (by decide)
  · split
    · rw [String.toList_append, List.forall_mem_append]
      exact ⟨List.all_eq_true.1 (by decide), numberSign_reprPos (-q)⟩
    · exact numberSign_reprPos q

theorem numberSign_text (value : MetricNumber) : ∀ c ∈ value.text.toList, numberSign c = true := by
  cases value with
  | int n =>
    cases n with
    | ofNat m => exact numberSign_toString m
    | negSucc m =>
      have htext : (toString (Int.negSucc m)).toList = '-' :: (toString (m + 1)).toList := String.toList_append
      unfold MetricNumber.text
      dsimp only
      rw [htext, List.forall_mem_cons]
      exact ⟨rfl, numberSign_toString (m + 1)⟩
  | float x =>
    cases x with
    | nan | negInf | posInf => exact List.all_eq_true.1 (by decide)
    | fin q => exact numberSign_token q

/-- What is no sign of a number is not in the text of a value. -/
theorem not_mem_text (value : MetricNumber) {c : Char} (hc : numberSign c = false) : c ∉ value.text.toList := by
  intro h
  rw [numberSign_text value c h] at hc
  cases hc

/-! ### Lines -/

/-- The name is read up to the sign that ends it. -/
theorem readName {name : String} (hname : PlainName name) {c : Char} (hc : nameSign c = false) (rest : List Char) :
    (name.toList ++ c :: rest).takeWhile nameSign = name.toList ∧
      (name.toList ++ c :: rest).dropWhile nameSign = c :: rest := by
  have hsigns : ∀ d ∈ name.toList, nameSign d = true := fun d hd => by
    obtain ⟨hblank, hbrace, -⟩ := hname d hd
    simp [nameSign, hblank, hbrace]
  rw [List.takeWhile_append_of_pos hsigns, List.dropWhile_append_of_pos hsigns,
    List.takeWhile_cons_of_neg (by simp [hc]), List.dropWhile_cons_of_neg (by simp [hc]), List.append_nil]
  exact ⟨rfl, rfl⟩

/-- A line that starts with a name is not a comment. -/
theorem head_name {name : String} (hname : PlainName name) {c : Char} (hc : c ≠ '#') (rest : List Char) :
    (name.toList ++ c :: rest).head? ≠ some '#' := by
  cases htext : name.toList with
  | nil => simpa using hc
  | cons d text =>
    have hd := (hname d (by rw [htext]; exact List.mem_cons_self)).2.2.2
    simpa using hd

theorem readLine_sampleLine {name : String} (hname : PlainName name) {commonItems : Dict String String}
    {sample : MetricSample} (hkeys : ∀ pair ∈ commonItems ++ sample.labels, PlainKey pair.1) :
    readLine (sampleLine name commonItems sample) =
      some (.sample name (commonItems ++ sample.labels) sample.value.text) := by
  unfold sampleLine
  dsimp only
  by_cases hpairs : commonItems ++ sample.labels = []
  · rw [if_neg (not_not.2 hpairs), readLine, if_neg (head_name hname (by decide) _), readSample,
      (readName hname rfl _).1, (readName hname rfl _).2, hpairs]
    simp
  · -- the pairs are read one by one, up to the closing brace
    have hread : ∀ pair ∈ commonItems ++ sample.labels, ∀ c, c = ',' ∨ c = '\x7d' → ∀ rest,
        readLabel (labelText pair ++ c :: rest) = some (pair, c :: rest) :=
      fun pair hpair c _ rest => readLabel_labelText (hkeys pair hpair) (c :: rest)
    rw [if_pos hpairs, readLine, if_neg (head_name hname (by decide) _), readSample,
      (readName hname rfl _).1, (readName hname rfl _).2]
    dsimp only
    rw [if_neg (by decide), commaSeparated,
      readItems_separated (by decide) hpairs (fun pair _ => by simp [labelText]) hread]
    simp

theorem says_sampleLine {name : String} (hname : PlainName name) {commonItems : Dict String String}
    {sample : MetricSample} (hkeys : ∀ pair ∈ commonItems ++ sample.labels, PlainKey pair.1) :
    Says '\n' readLine (sampleLine name commonItems sample)
      (.sample name (commonItems ++ sample.labels) sample.value.text) := by
  refine ⟨?_, readLine_sampleLine hname hkeys⟩
  have hend : '\n' ∉ name.toList := fun h => (hname '\n' h).2.2.1 rfl
  have hitems : '\n' ∉ commaSeparated ((commonItems ++ sample.labels).map labelText) := by
    refine not_mem_intercalate (by decide) fun word hword => ?_
    obtain ⟨pair, hpair, rfl⟩ := List.mem_map.1 hword
    exact not_mem_labelText (hkeys pair hpair)
  have htext : '\n' ∉ sample.value.text.toList := not_mem_text sample.value rfl
  unfold sampleLine
  dsimp only
  split
  · rw [List.mem_append, List.mem_cons, List.mem_append, List.mem_cons, List.mem_cons, not_or, not_or, not_or, not_or, not_or]
    exact ⟨hend, by decide, hitems, by decide, by decide, htext⟩
  · rw [List.mem_append, List.mem_cons, not_or, not_or]
    exact ⟨hend, by decide, htext⟩

/-- A comment with one of the two keywords. -/
theorem says_comment {mark : List Char} (keyword : List Char) (hmark : mark = ['#'] ++ ' ' :: (keyword ++ [' ']))
    (hkeyword : keyword = "HELP".toList ∨ keyword = "TYPE".toList) {name text : String} (hname : PlainName name)
    (htext : OneLine text) :
    Says '\n' readLine (mark ++ name.toList ++ ' ' :: text.toList)
      (if keyword = "HELP".toList then .help name text else .type name text) := by
  have hline : mark ++ name.toList ++ ' ' :: text.toList =
      ['#'] ++ ' ' :: (keyword ++ ' ' :: (name.toList ++ ' ' :: text.toList)) := by
    rw [hmark]
    simp
  have hplain : '\n' ∉ keyword ∧ ' ' ∉ keyword := by
    rcases hkeyword with rfl | rfl
    · decide
    · decide
  have hend : '\n' ∉ name.toList := fun h => (hname '\n' h).2.2.1 rfl
  rw [hline]
  constructor
  · simp only [List.mem_append, List.mem_cons, List.not_mem_nil, not_or]
    exact ⟨⟨by decide, not_false⟩, by decide, hplain.1, by decide, hend, by decide, htext⟩
  · unfold readLine readComment
    rw [if_pos (by rfl), splitAt?_append (by decide)]
    dsimp only [Option.bind_eq_bind, Option.bind_some]
    rw [splitAt?_append hplain.2]
    dsimp only [Option.bind_eq_bind, Option.bind_some]
    rw [splitAt?_append fun h => (hname ' ' h).1 rfl]
    dsimp only [Option.bind_eq_bind, Option.bind_some]
    rw [String.ofList_toList, String.ofList_toList]
    rcases hkeyword with rfl | rfl
    · rfl
    · rfl

theorem says_typeLine {name type : String} (hname : PlainName name) (htype : OneLine type) :
    Says '\n' readLine (typeLine name type) (.type name type) :=
  says_comment "TYPE".toList (by decide) (.inr rfl) hname htype

theorem says_seriesLines {serie : MetricSeries} (h : serie.Plain) {commonItems : Dict String String}
    (hcommon : ∀ pair ∈ commonItems, PlainKey pair.1) :
    List.Forall₂ (Says '\n' readLine) (seriesLines commonItems serie) (serie.meant commonItems) := by
  refine .cons (says_comment "HELP".toList (by decide) (.inl rfl) h.name h.help)
    (.cons (says_typeLine h.name h.type) ?_)
  rw [List.forall₂_map_left_iff, List.forall₂_map_right_iff, List.forall₂_same]
  intro sample hsample
  refine says_sampleLine h.name fun pair hpair => ?_
  rcases List.mem_append.1 hpair with hpair | hpair
  · exact hcommon pair hpair
  · exact h.keys sample hsample pair hpair

theorem says_series {series : List MetricSeries} (hseries : ∀ serie ∈ series, serie.Plain)
    {commonItems : Dict String String} (hcommon : ∀ pair ∈ commonItems, PlainKey pair.1) :
    List.Forall₂ (Says '\n' readLine) (series.flatMap (seriesLines commonItems))
      (series.flatMap fun serie => serie.meant commonItems) := by
  induction series with
  | nil => exact .nil
  | cons serie series ih =>
    rw [List.forall_mem_cons] at hseries
    rw [List.flatMap_cons, List.flatMap_cons]
    exact List.rel_append (says_seriesLines hseries.1 hcommon) (ih hseries.2)

/-- **The series are read back**, whatever the values of their labels are. -/
theorem readText_renderSeries {series : List MetricSeries} (hseries : ∀ serie ∈ series, serie.Plain)
    {commonLabels : Dict String String} (hcommon : ∀ pair ∈ commonLabels, PlainKey pair.1) :
    readText (renderSeries series commonLabels) = some (series.flatMap fun serie => serie.meant commonLabels) := by
  have hsays := says_series hseries hcommon
  unfold readText renderSeries linesText
  rw [joinLines_eq]
  exact readAllLines_joinLines hsays

/-- **Rendered series are told apart.** -/
theorem renderSeries_injective {series series' : List MetricSeries} (hseries : ∀ serie ∈ series, serie.Plain)
    (hseries' : ∀ serie ∈ series', serie.Plain) {commonLabels commonLabels' : Dict String String}
    (hcommon : ∀ pair ∈ commonLabels, PlainKey pair.1) (hcommon' : ∀ pair ∈ commonLabels', PlainKey pair.1)
    (htext : renderSeries series commonLabels = renderSeries series' commonLabels') :
    (series.flatMap fun serie => serie.meant commonLabels) =
      series'.flatMap fun serie => serie.meant commonLabels' := by
  have hread := readText_renderSeries hseries hcommon
  rw [htext, readText_renderSeries hseries' hcommon'] at hread
  exact (Option.some.inj hread).symm

/-! ## The series of a node -/

/-- mirrors mdrj/metrics.py:18-34 -/
structure MetricsSnapshot where
  aEst : Flt
  tGossip : Flt
  kR : Flt
  cMem : Flt
  cNet : Flt
  eventCount : ℤ
  rssBytes : ℤ
  cpuPercent : Flt
  dbSizeBytes : ℤ
  gossipBytesInTotal : ℤ
  gossipBytesOutTotal : ℤ
  bytesPerEvent : Flt
  emitToConsensusLatencyP50Ms : Flt
  emitToConsensusLatencyP95Ms : Flt

/-- mirrors mdrj/node.py:2513-2530 -/
def metricsSnapshot (snap : MetricsSnapshot) : Dict String MetricNumber :=
  [("A_est", .float snap.aEst), ("T_gossip", .float snap.tGossip), ("K_r", .float snap.kR),
    ("C_mem", .float snap.cMem), ("C_net", .float snap.cNet), ("event_count", .int snap.eventCount),
    ("rss_bytes", .int snap.rssBytes), ("cpu_percent", .float snap.cpuPercent),
    ("db_size_bytes", .int snap.dbSizeBytes), ("gossip_bytes_in_total", .int snap.gossipBytesInTotal),
    ("gossip_bytes_out_total", .int snap.gossipBytesOutTotal), ("bytes_per_event", .float snap.bytesPerEvent),
    ("emit_to_consensus_latency_p50_ms", .float snap.emitToConsensusLatencyP50Ms),
    ("emit_to_consensus_latency_p95_ms", .float snap.emitToConsensusLatencyP95Ms)]

/-- What the page reads of a node. -/
structure ScrapedNode where
  nodeId : String
  snapshot : MetricsSnapshot
  eventsByClassKind : Dict (EventClass × String) ℕ
  collectors : List CollectorStatus
  peers : List PeerRecord
  members : ℕ
  heartbeatEmitted : ℕ
  serviceStarted : ℕ
  serviceStopped : ℕ
  serviceKilled : ℕ
  hostBoot : ℕ
  hostReboot : ℕ
  checkpointConfirmed : ℕ
  classADurable : ℕ
  classALocalOnly : ℕ
  frontierSyncPulls : ℕ
  tamperAlerts : ℕ
  storage : DAGStorage
  tamperEvidence : Bool

/-- `sorted(...)` of the counts, by class and kind. -/
def sortedKinds (counts : Dict (EventClass × String) ℕ) : Dict (EventClass × String) ℕ :=
  counts.insertionSort fun a b =>
    a.1.1.value < b.1.1.value ∨ a.1.1.value = b.1.1.value ∧ a.1.2 ≤ b.1.2

/-- mirrors mdrj/prometheus_extras.py:77-86 -/
def eventsByClass (counts : Dict (EventClass × String) ℕ) : MetricSeries where
  name := "mdrj_events_total"
  type := "counter"
  help := "Накопительный счётчик эмитированных событий по классу/типу"
  samples := if counts = [] then [⟨[("class", "A"), ("kind", "_none")], .int 0⟩]
    else (sortedKinds counts).map fun p => ⟨[("class", p.1.1.value), ("kind", p.1.2)], .int p.2⟩

/-- mirrors mdrj/prometheus_extras.py:88-122 -/
def collectorSeries (now : Flt) (collectors : List CollectorStatus) : List MetricSeries :=
  [⟨"mdrj_events_by_collector_total", "counter", "События по коллектору-источнику",
      collectors.map fun status => ⟨[("collector", status.name)], asFloat status.emittedCount⟩⟩,
    ⟨"mdrj_collector_enabled", "gauge", "1 если коллектор включён и здоров, иначе 0",
      collectors.map fun status => ⟨[("collector", status.name)], asFloat (if status.enabled then 1 else 0)⟩⟩,
    ⟨"mdrj_collector_last_poll_seconds_ago", "gauge", "Секунд с последнего успешного poll коллектора",
      collectors.filterMap fun status => status.lastPollAt.map fun lastPollAt =>
        ⟨[("collector", status.name)], .float (now.sub lastPollAt).clamp0⟩⟩,
    ⟨"mdrj_events_dropped_total", "counter", "Сколько событий было отброшено коллектором по причине",
      (collectors.filter fun status => status.droppedCount ≠ 0).map fun status =>
        ⟨[("collector", status.name), ("reason", orText (status.lastDropReason.getD "") "unknown")],
          asFloat status.droppedCount⟩⟩].filter fun serie => !serie.samples.isEmpty

def approvalText : ApprovalStatus → String
  | .approved => "approved"
  | .pending => "pending"
  | .rejected => "rejected"

/-- mirrors mdrj/prometheus_extras.py:125-134 -/
def peersByStatus (peers : List PeerRecord) : Dict String ℕ :=
  peers.foldl (fun counts peer =>
    let status := approvalText peer.approvalStatus
    Dict.set counts status ((Dict.get counts status).getD 0 + 1)) [("approved", 0), ("pending", 0), ("rejected", 0)]

/-- The other peers seen in the last 30 seconds.
mirrors mdrj/prometheus_extras.py:135-138 -/
def reachable (peers : List PeerRecord) (now : Flt) : ℕ :=
  peers.countP fun peer => !peer.isSelf && match peer.lastSeen with
    | some lastSeen => now.sub lastSeen ≠ .nan && !Flt.lt (.fin 30) (now.sub lastSeen)
    | none => false

/-- mirrors mdrj/prometheus_extras.py:140-147 -/
def peersTotal (peers : List PeerRecord) : MetricSeries where
  name := "mdrj_peers_total"
  type := "gauge"
  help := "Пиров в peer-registry по статусу одобрения"
  samples := (peersByStatus peers).map fun p => ⟨[("status", p.1)], asFloat p.2⟩

/-- `payload.get("event_kind") in _LIVENESS_KINDS`; a payload without `get` and
a kind that cannot be hashed raise. -/
def livenessKind (payload : Json) : Option Bool :=
  if payload.truthy then
    match payload with
    | .obj fields =>
      match Dict.get fields "event_kind" with
      | some (.str kind) => some (kind = "heartbeat" || kind = "node_hourly_status")
      | some (.arr _) => none
      | some (.obj _) => none
      | _ => some false
    | _ => none
  else some false

/-- mirrors mdrj/prometheus_extras.py:280-286 -/
def notedHeartbeat (str : Json → String) (latest : Dict String Flt) (event : Event) : Option (Dict String Flt) :=
  match livenessKind event.payload with
  | none => none
  | some false => some latest
  | some true =>
    let named := event.payload.entry "node_id"
    let peerId := strip (if named.truthy then str named else event.source)
    if peerId = "" then some latest
    else if Flt.lt ((Dict.get latest peerId).getD (.fin 0)) event.tsLocal then
      some (Dict.set latest peerId event.tsLocal)
    else some latest

/-- mirrors mdrj/prometheus_extras.py:262-287 -/
def collectPeerHeartbeats (str : Json → String) (s : DAGStorage) (now : Flt) : Option (Dict String Flt) :=
  ((s.listRecentEvents 512).foldlM (notedHeartbeat str) []).map fun latest =>
    latest.map fun p => (p.1, (now.sub p.2).clamp0)

def heartbeatSeries (peerHeartbeats : Dict String Flt) : MetricSeries where
  name := "mdrj_heartbeat_last_seconds_ago"
  type := "gauge"
  help := "Секунд с последнего heartbeat-события от пира (включая себя)"
  samples := peerHeartbeats.map fun p => ⟨[("peer", p.1)], .float p.2⟩

/-- mirrors mdrj/prometheus_extras.py:290-301 -/
def latestCheckpointMetrics (s : DAGStorage) (now : Flt) : ℤ × Flt :=
  match s.latestConfirmedCheckpoint with
  | none => (0, .fin 0)
  | some (roundReceived, row) =>
    let confirmedAt := match row.confirmedAt with
      | some t => if t = .fin 0 then row.createdAt else t
      | none => row.createdAt
    (roundReceived, (now.sub confirmedAt).clamp0)

/-- A series of one figure without labels. -/
def single (name type help : String) (value : MetricNumber) : MetricSeries := ⟨name, type, help, [⟨[], value⟩]⟩

/-- `now` and `nowPeers` are the two readings of the clock.
mirrors mdrj/prometheus_extras.py:68-256 -/
def buildExtras (str : Json → String) (node : ScrapedNode) (now nowPeers : Flt) : Option (List MetricSeries) := do
  let peerHeartbeats ← collectPeerHeartbeats str node.storage nowPeers
  pure (eventsByClass node.eventsByClassKind :: collectorSeries now node.collectors ++ peersTotal node.peers ::
    [single "mdrj_peers_reachable" "gauge" "Пиров с last_seen < 30c (внешние, без self)" (asFloat (reachable node.peers now)),
      single "mdrj_consensus_membership_size" "gauge" "Размер подтверждённого consensus-membership" (asFloat node.members),
      single "mdrj_quorum_size" "gauge" "Размер кворума 2/3 для подписи checkpoint" (asFloat ((2 * node.members + 2) / 3)),
      single "mdrj_heartbeat_emitted_total" "counter" "Локальные heartbeat этого узла" (asFloat node.heartbeatEmitted)] ++
    (if peerHeartbeats.isEmpty then [] else [heartbeatSeries peerHeartbeats]) ++
    [single "mdrj_service_started_total" "counter" "Эмиссий mdrj_service_start с момента старта процесса" (asFloat node.serviceStarted),
      single "mdrj_service_stopped_total" "counter" "Эмиссий mdrj_service_stop" (asFloat node.serviceStopped),
      single "mdrj_service_killed_total" "counter" "Сколько раз обнаружен старт без предыдущего stop (улика УБИ.124)" (asFloat node.serviceKilled),
      single "mdrj_host_boot_total" "counter" "Зафиксированных загрузок ОС хоста" (asFloat node.hostBoot),
      single "mdrj_host_reboot_total" "counter" "Зафиксированных перезагрузок ОС хоста" (asFloat node.hostReboot),
      single "mdrj_checkpoint_confirmed_total" "counter" "Сколько checkpoint достигли 2/3 кворума" (asFloat node.checkpointConfirmed),
      single "mdrj_class_a_durable_total" "counter" "Класс A с ACK ≥ 2/3 пиров (Слой 2)" (asFloat node.classADurable),
      single "mdrj_class_a_local_only_total" "counter" "Класс A без ACK 2/3 (упал в pending для догона)" (asFloat node.classALocalOnly),
      single "mdrj_frontier_sync_pulls_total" "counter" "События подтянутые через frontier-handshake" (asFloat node.frontierSyncPulls),
      single "mdrj_tamper_alerts_total" "counter" "Эмиссии mdrj_tamper_detected (улики подделки)" (asFloat node.tamperAlerts),
      single "mdrj_checkpoint_last_round" "gauge" "round_received последнего confirmed checkpoint (0 если их нет)" (asFloat (latestCheckpointMetrics node.storage now).1),
      single "mdrj_checkpoint_last_age_seconds" "gauge" "Секунд с подтверждения последнего checkpoint" (.float (latestCheckpointMetrics node.storage now).2),
      single "mdrj_tamper_evidence" "gauge" "1 если последний checkpoint/verify нашёл подделку, иначе 0" (asFloat (if node.tamperEvidence then 1 else 0))])

/-! ## The page of a node -/

/-- mirrors mdrj/api.py:7265-7280 -/
def PROMETHEUS_METRIC_TYPES : Dict String String :=
  [("A_est", "gauge"), ("T_gossip", "gauge"), ("K_r", "gauge"), ("C_mem", "gauge"), ("C_net", "gauge"),
    ("event_count", "gauge"), ("rss_bytes", "gauge"), ("cpu_percent", "gauge"), ("db_size_bytes", "gauge"),
    ("gossip_bytes_in_total", "counter"), ("gossip_bytes_out_total", "counter"), ("bytes_per_event", "gauge"),
    ("emit_to_consensus_latency_p50_ms", "gauge"), ("emit_to_consensus_latency_p95_ms", "gauge")]

/-- `float(value)`. -/
def MetricNumber.toFloat : MetricNumber → MetricNumber
  | .int n => asFloat n
  | .float x => .float x

def metricName (key : String) : String := "mdrj_" ++ key.toLower

def metricType (key : String) : String := (Dict.get PROMETHEUS_METRIC_TYPES key).getD "gauge"

/-- The node id is written as it is. -/
def baseSampleLine (nodeId key : String) (value : MetricNumber) : List Char :=
  (metricName key).toList ++ '\x7b' :: ("node_id=\"".toList ++ nodeId.toList ++ '"' :: '\x7d' :: ' ' ::
    value.toFloat.text.toList)

/-- mirrors mdrj/api.py:7288-7298 -/
def baseLines (nodeId : String) (snap : Dict String MetricNumber) : List (List Char) :=
  snap.flatMap fun p => [typeLine (metricName p.1) (metricType p.1), baseSampleLine nodeId p.1 p.2]

/-- `none` is an answer with the status 500.
mirrors mdrj/api.py:7283-7301 -/
def handleMetricsPrometheus (str : Json → String) (node : ScrapedNode) (now nowPeers : Flt) : Option (List Char) := do
  let extras ← buildExtras str node now nowPeers
  pure (linesText (baseLines node.nodeId (metricsSnapshot node.snapshot)) ++
    renderSeries extras [("node_id", node.nodeId)])

/-- The lines of the first figures, had they been rendered as series are. -/
def renderedBase (nodeId : String) (snap : Dict String MetricNumber) : List (List Char) :=
  snap.flatMap fun p => [typeLine (metricName p.1) (metricType p.1),
    sampleLine (metricName p.1) [("node_id", nodeId)] ⟨[], p.2.toFloat⟩]

/-- What the first figures say. -/
def baseMeant (nodeId : String) (snap : Dict String MetricNumber) : List MetricLine :=
  snap.flatMap fun p => [.type (metricName p.1) (metricType p.1),
    .sample (metricName p.1) [("node_id", nodeId)] p.2.toFloat.text]

/-- What the page is meant to say. -/
def pageMeant (str : Json → String) (node : ScrapedNode) (now nowPeers : Flt) : Option (List MetricLine) := do
  let extras ← buildExtras str node now nowPeers
  pure (baseMeant node.nodeId (metricsSnapshot node.snapshot) ++
    extras.flatMap fun serie => serie.meant [("node_id", node.nodeId)])

/-! ### Every series of a node is plain -/

theorem plainName_ofList {name : List Char} (h : name.all (plainSign ·) = true) :
    PlainName (String.ofList name) := by
  unfold PlainName
  rw [String.toList_ofList]
  simpa using h

theorem oneLine_ofList {text : List Char} (h : '\n' ∉ text) : OneLine (String.ofList text) := by
  unfold OneLine
  rw [String.toList_ofList]
  exact h

/-- A series whose samples all have the labels `keys`. -/
theorem plain_of_keys {name type help : List Char} {samples : List MetricSample}
    (htexts : name.all (plainSign ·) = true ∧ '\n' ∉ type ∧ '\n' ∉ help) (keys : List String)
    (hkeys : ∀ key ∈ keys, PlainKey key) (hsamples : ∀ sample ∈ samples, Dict.keys sample.labels = keys) :
    MetricSeries.Plain ⟨String.ofList name, String.ofList type, String.ofList help, samples⟩ where
  name := plainName_ofList htexts.1
  type := oneLine_ofList htexts.2.1
  help := oneLine_ofList htexts.2.2
  keys sample hsample pair hpair := hkeys pair.1 (hsamples sample hsample ▸ List.mem_map_of_mem hpair)

theorem plain_single {name type help : List Char} (htexts : name.all (plainSign ·) = true ∧ '\n' ∉ type ∧ '\n' ∉ help)
    (value : MetricNumber) : (single (String.ofList name) (String.ofList type) (String.ofList help) value).Plain := by
  refine plain_of_keys htexts [] (by decide) fun sample hsample => ?_
  rw [List.mem_singleton.1 hsample]
  rfl

theorem plain_eventsByClass (counts : Dict (EventClass × String) ℕ) : (eventsByClass counts).Plain := by
  refine plain_of_keys (by decide) ["class", "kind"] (by decide) fun sample hsample => ?_
  split at hsample
  · rw [List.mem_singleton.1 hsample]
    rfl
  · obtain ⟨p, -, rfl⟩ := List.mem_map.1 hsample
    rfl

theorem plain_collectorSeries (now : Flt) (collectors : List CollectorStatus) :
    ∀ serie ∈ collectorSeries now collectors, serie.Plain := by
  intro serie hserie
  have hmem := List.mem_of_mem_filter hserie
  simp only [List.mem_cons, List.not_mem_nil, or_false] at hmem
  rcases hmem with rfl | rfl | rfl | rfl
  · refine plain_of_keys (by decide) ["collector"] (by decide) fun sample hsample => ?_
    obtain ⟨status, -, rfl⟩ := List.mem_map.1 hsample
    rfl
  · refine plain_of_keys (by decide) ["collector"] (by decide) fun sample hsample => ?_
    obtain ⟨status, -, rfl⟩ := List.mem_map.1 hsample
    rfl
  · refine plain_of_keys (by decide) ["collector"] (by decide) fun sample hsample => ?_
    obtain ⟨status, -, hpoll⟩ := List.mem_filterMap.1 hsample
    obtain ⟨lastPollAt, -, rfl⟩ := Option.map_eq_some_iff.1 hpoll
    rfl
  · refine plain_of_keys (by decide) ["collector", "reason"] (by decide) fun sample hsample => ?_
    obtain ⟨status, -, rfl⟩ := List.mem_map.1 hsample
    rfl

theorem plain_peersTotal (peers : List PeerRecord) : (peersTotal peers).Plain := by
  refine plain_of_keys (by decide) ["status"] (by decide) fun sample hsample => ?_
  obtain ⟨p, -, rfl⟩ := List.mem_map.1 hsample
  rfl

theorem plain_heartbeatSeries (peerHeartbeats : Dict String Flt) : (heartbeatSeries peerHeartbeats).Plain := by
  refine plain_of_keys (by decide) ["peer"] (by decide) fun sample hsample => ?_
  obtain ⟨p, -, rfl⟩ := List.mem_map.1 hsample
  rfl

theorem plain_buildExtras {str : Json → String} {node : ScrapedNode} {now nowPeers : Flt} {extras : List MetricSeries}
    (h : buildExtras str node now nowPeers = some extras) : ∀ serie ∈ extras, serie.Plain := by
  obtain ⟨peerHeartbeats, -, hextras⟩ := Option.bind_eq_some_iff.1 h
  cases hextras
  have hheartbeats : ∀ serie ∈ (if peerHeartbeats.isEmpty then [] else [heartbeatSeries peerHeartbeats]),
      serie.Plain := by
    split
    · exact fun serie hserie => absurd hserie List.not_mem_nil
    · exact List.forall_mem_singleton.2 (plain_heartbeatSeries peerHeartbeats)
  rw [List.forall_mem_append, List.forall_mem_append]
  refine ⟨⟨?_, hheartbeats⟩, ?_⟩
  · rw [List.forall_mem_append, List.forall_mem_cons]
    refine ⟨⟨plain_eventsByClass _, plain_collectorSeries now _⟩, ?_⟩
    rw [List.forall_mem_cons]
    refine ⟨plain_peersTotal _, ?_⟩
    simp only [List.forall_mem_cons]
    exact ⟨plain_single (by decide) _, plain_single (by decide) _, plain_single (by decide) _,
      plain_single (by decide) _, List.forall_mem_nil _⟩
  · simp only [List.forall_mem_cons]
    exact ⟨plain_single (by decide) _, plain_single (by decide) _, plain_single (by decide) _,
      plain_single (by decide) _, plain_single (by decide) _, plain_single (by decide) _,
      plain_single (by decide) _, plain_single (by decide) _, plain_single (by decide) _,
      plain_single (by decide) _, plain_single (by decide) _, plain_single (by decide) _,
      plain_single (by decide) _, List.forall_mem_nil _⟩

/-! ### The whole page -/

/-- The id can stand in quotes as it is. -/
def PlainLabel (text : String) : Prop := '\\' ∉ text.toList ∧ '"' ∉ text.toList ∧ '\n' ∉ text.toList

/-- A text that can stand in quotes is one that escapes to itself. -/
theorem esc_eq_self_iff {text : String} : esc text = text.toList ↔ PlainLabel text := by
  rw [esc_eq, labelEscaping.escape_eq_self_iff]
  have hcode : ∀ c, labelEscaping.code c = none ↔ c ≠ '\\' ∧ c ≠ '"' ∧ c ≠ '\n' := by
    intro c
    unfold labelEscaping
    dsimp only
    split_ifs with hmark hquote hend
    · simp [hmark]
    · simp [hquote]
    · simp [hend]
    · simp [hmark, hquote, hend]
  unfold PlainLabel
  constructor
  · intro h
    exact ⟨fun hc => ((hcode _).1 (h _ hc)).1 rfl, fun hc => ((hcode _).1 (h _ hc)).2.1 rfl,
      fun hc => ((hcode _).1 (h _ hc)).2.2 rfl⟩
  · intro h c hc
    exact (hcode c).2 ⟨fun heq => h.1 (heq ▸ hc), fun heq => h.2.1 (heq ▸ hc), fun heq => h.2.2 (heq ▸ hc)⟩

theorem plain_metricName {key : List Char} (h : key.all (plainSign ·.toLower) = true) :
    PlainName (metricName (String.ofList key)) := by
  unfold PlainName metricName
  rw [String.toList_append, List.forall_mem_append]
  refine ⟨plainName_ofList (by decide), ?_⟩
  intro c hc
  rw [String.toLower, String.toList_map, String.toList_ofList] at hc
  obtain ⟨d, hd, rfl⟩ := List.mem_map.1 hc
  simpa using List.all_eq_true.1 h d hd

theorem plain_metricsSnapshot (snap : MetricsSnapshot) : ∀ p ∈ metricsSnapshot snap, PlainName (metricName p.1) := by
  unfold metricsSnapshot
  simp only [List.forall_mem_cons]
  exact ⟨plain_metricName (by decide), plain_metricName (by decide), plain_metricName (by decide),
    plain_metricName (by decide), plain_metricName (by decide), plain_metricName (by decide),
    plain_metricName (by decide), plain_metricName (by decide), plain_metricName (by decide),
    plain_metricName (by decide), plain_metricName (by decide), plain_metricName (by decide),
    plain_metricName (by decide), plain_metricName (by decide), List.forall_mem_nil _⟩

theorem oneLine_metricType (key : String) : OneLine (metricType key) := by
  have hall : ∀ kind ∈ Dict.values PROMETHEUS_METRIC_TYPES, kind = "gauge" ∨ kind = "counter" := by decide
  unfold metricType
  cases hget : Dict.get PROMETHEUS_METRIC_TYPES key with
  | none => exact oneLine_ofList (by decide)
  | some kind =>
    rcases hall kind (List.mem_map_of_mem (Dict.mem_of_get hget)) with rfl | rfl
    · exact oneLine_ofList (by decide)
    · exact oneLine_ofList (by decide)

theorem plainKey_node_id (nodeId : String) : ∀ pair ∈ [("node_id", nodeId)], PlainKey pair.1 := by
  intro pair hpair
  rw [List.mem_singleton.1 hpair]
  change PlainKey "node_id"
  decide

/-- A line of the first figures is the line of a sample, exactly if the node id
can stand in quotes. -/
theorem baseSampleLine_eq_iff {nodeId key : String} {value : MetricNumber} :
    baseSampleLine nodeId key value = sampleLine (metricName key) [("node_id", nodeId)] ⟨[], value.toFloat⟩ ↔
      PlainLabel nodeId := by
  have hkeyword : "node_id=\"".toList = "node_id".toList ++ ['=', '"'] := by decide
  have hplain : baseSampleLine nodeId key value = ((metricName key).toList ++ '\x7b' :: "node_id=\"".toList) ++
      (nodeId.toList ++ '"' :: '\x7d' :: ' ' :: value.toFloat.text.toList) := by
    unfold baseSampleLine
    simp only [List.append_assoc, List.cons_append]
  have hescaped : sampleLine (metricName key) [("node_id", nodeId)] ⟨[], value.toFloat⟩ =
      ((metricName key).toList ++ '\x7b' :: "node_id=\"".toList) ++
        (esc nodeId ++ '"' :: '\x7d' :: ' ' :: value.toFloat.text.toList) := by
    unfold sampleLine
    dsimp only
    rw [List.append_nil, if_pos (List.cons_ne_nil _ _), List.map_singleton, commaSeparated, List.intercalate_singleton,
      labelText, hkeyword]
    simp only [List.append_assoc, List.cons_append, List.nil_append]
  rw [← esc_eq_self_iff, hplain, hescaped, List.append_cancel_left_eq, List.append_cancel_right_eq]
  exact eq_comm

theorem baseLines_eq_iff {nodeId : String} (p : String × MetricNumber) (snap : Dict String MetricNumber) :
    baseLines nodeId (p :: snap) = renderedBase nodeId (p :: snap) ↔ PlainLabel nodeId := by
  unfold baseLines renderedBase
  constructor
  · intro h
    rw [List.flatMap_cons, List.flatMap_cons, List.cons_append, List.cons_append, List.cons_append,
      List.cons_append] at h
    -- the second line is the first figure
    exact baseSampleLine_eq_iff.1 (List.cons.inj (List.cons.inj h).2).1
  · intro hid
    refine List.flatMap_congr fun q _ => ?_
    rw [baseSampleLine_eq_iff.2 hid]

theorem says_baseLines {nodeId : String} (hid : PlainLabel nodeId) {snap : Dict String MetricNumber}
    (hnames : ∀ p ∈ snap, PlainName (metricName p.1)) :
    List.Forall₂ (Says '\n' readLine) (baseLines nodeId snap) (baseMeant nodeId snap) := by
  unfold baseLines baseMeant
  induction snap with
  | nil => exact .nil
  | cons p snap ih =>
    rw [List.forall_mem_cons] at hnames
    rw [List.flatMap_cons, List.flatMap_cons]
    refine List.rel_append (.cons (says_typeLine hnames.1 (oneLine_metricType p.1)) (.cons ?_ .nil)) (ih hnames.2)
    rw [baseSampleLine_eq_iff.2 hid]
    exact says_sampleLine hnames.1 (plainKey_node_id nodeId)

/-- A heartbeat is not noted exactly when its kind cannot be looked up. -/
theorem notedHeartbeat_eq_none (str : Json → String) (latest : Dict String Flt) {event : Event} :
    notedHeartbeat str latest event = none ↔ livenessKind event.payload = none := by
  unfold notedHeartbeat
  cases livenessKind event.payload with
  | none => exact ⟨fun _ => rfl, fun _ => rfl⟩
  | some liveness =>
    cases liveness with
    | false => simp
    | true =>
      dsimp only
      generalize strip _ = peerId
      by_cases hname : peerId = ""
      · simp [hname]
      · rw [if_neg hname]
        by_cases hlater : Flt.lt ((Dict.get latest peerId).getD (.fin 0)) event.tsLocal = true
        · simp [hlater]
        · simp [hlater]

theorem foldlM_notedHeartbeat (str : Json → String) {events : List Event} (latest : Dict String Flt) :
    events.foldlM (notedHeartbeat str) latest = none ↔ ∃ event ∈ events, livenessKind event.payload = none := by
  induction events generalizing latest with
  | nil => exact ⟨fun h => (by cases h), fun h => by obtain ⟨event, hevent, -⟩ := h; exact absurd hevent List.not_mem_nil⟩
  | cons event events ih =>
    rw [List.foldlM_cons, List.exists_mem_cons_iff, ← notedHeartbeat_eq_none str latest]
    cases notedHeartbeat str latest event with
    | none => simp
    | some latest' => simpa using ih latest'

theorem buildExtras_eq_none (str : Json → String) (node : ScrapedNode) (now nowPeers : Flt) :
    buildExtras str node now nowPeers = none ↔
      ∃ event ∈ node.storage.listRecentEvents 512, livenessKind event.payload = none := by
  rw [← foldlM_notedHeartbeat str []]
  unfold buildExtras collectPeerHeartbeats
  cases (node.storage.listRecentEvents 512).foldlM (notedHeartbeat str) [] with
  | none => exact ⟨fun _ => rfl, fun _ => rfl⟩
  | some latest => exact ⟨fun h => (by cases h), fun h => (by cases h)⟩

/-- The page of a node whose id can stand in quotes is read as meant. -/
theorem readText_page {str : Json → String} {node : ScrapedNode} {now nowPeers : Flt} {page : List Char}
    (hid : PlainLabel node.nodeId) (h : handleMetricsPrometheus str node now nowPeers = some page) :
    readText page = pageMeant str node now nowPeers := by
  unfold handleMetricsPrometheus at h
  unfold pageMeant
  obtain ⟨extras, hextras, hpage⟩ := Option.bind_eq_some_iff.1 h
  cases hpage
  rw [hextras]
  have hsays := List.rel_append (says_baseLines hid (plain_metricsSnapshot node.snapshot))
    (says_series (plain_buildExtras hextras) (plainKey_node_id node.nodeId))
  have htext := readAllLines_joinLines hsays
  rw [joinLines_append, ← joinLines_eq, ← joinLines_eq] at htext
  exact htext

/-- **The page loses nothing of a node with a plain id.** The text of the page
fails exactly when the kind of one of the 512 newest events cannot be looked up.
Its first figures are written as `render_series` writes them exactly when the
node id can stand in quotes; of such nodes pages that are equal say the same.
The series after them are told apart by their text, whatever the ids are. -/
theorem metrics_page_lossless (str : Json → String) (node : ScrapedNode) (now nowPeers : Flt) :
    (handleMetricsPrometheus str node now nowPeers = none ↔
      ∃ event ∈ node.storage.listRecentEvents 512, livenessKind event.payload = none) ∧
    (baseLines node.nodeId (metricsSnapshot node.snapshot) = renderedBase node.nodeId (metricsSnapshot node.snapshot) ↔
      PlainLabel node.nodeId) ∧
    ∀ (node' : ScrapedNode) (now' nowPeers' : Flt),
      (∀ page, PlainLabel node.nodeId → PlainLabel node'.nodeId →
        handleMetricsPrometheus str node now nowPeers = some page →
        handleMetricsPrometheus str node' now' nowPeers' = some page →
          pageMeant str node now nowPeers = pageMeant str node' now' nowPeers') ∧
      ∀ extras extras', buildExtras str node now nowPeers = some extras →
        buildExtras str node' now' nowPeers' = some extras' →
        renderSeries extras [("node_id", node.nodeId)] = renderSeries extras' [("node_id", node'.nodeId)] →
          (extras.flatMap fun serie => serie.meant [("node_id", node.nodeId)]) =
            extras'.flatMap fun serie => serie.meant [("node_id", node'.nodeId)] := by
  refine ⟨?_, baseLines_eq_iff _ _, fun node' now' nowPeers' => ⟨?_, ?_⟩⟩
  · rw [← buildExtras_eq_none str node now nowPeers]
    unfold handleMetricsPrometheus
    cases buildExtras str node now nowPeers <;> simp
  · intro page hid hid' hpage hpage'
    rw [← readText_page hid hpage, ← readText_page hid' hpage']
  · intro extras extras' hextras hextras' htext
    exact renderSeries_injective (plain_buildExtras hextras) (plain_buildExtras hextras') (plainKey_node_id _)
      (plainKey_node_id _) htext

/-- A node that has done nothing but store these events. -/
def idleNode (events : List EventRow) : ScrapedNode :=
  ⟨"a", ⟨.fin 0, .fin 0, .fin 0, .fin 0, .fin 0, 0, 0, .fin 0, 0, 0, 0, .fin 0, .fin 0, .fin 0⟩, [], [], [], 1, 0, 0, 0, 0,
    0, 0, 0, 0, 0, 0, 0, { events := events }, false⟩

/-- A login without a heartbeat does not show: the pages are equal, and say the
same. -/
theorem metrics_page_lossless_login :
    let login : EventRow :=
      ⟨{ Event.linked "x" "a" [] with payload := .obj [("event_kind", .str "admin_ssh_login_success")] }, .fin 0⟩
    ∃ page, handleMetricsPrometheus (fun _ => "") (idleNode []) (.fin 0) (.fin 0) = some page ∧
      handleMetricsPrometheus (fun _ => "") (idleNode [login]) (.fin 0) (.fin 0) = some page ∧
      pageMeant (fun _ => "") (idleNode []) (.fin 0) (.fin 0) =
        pageMeant (fun _ => "") (idleNode [login]) (.fin 0) (.fin 0) := by
  intro login
  have hnone : collectPeerHeartbeats (fun _ => "") (idleNode []).storage (.fin 0) = some [] := by decide +kernel
  have hlogin : collectPeerHeartbeats (fun _ => "") (idleNode [login]).storage (.fin 0) = some [] := by decide +kernel
  have hsame : handleMetricsPrometheus (fun _ => "") (idleNode [login]) (.fin 0) (.fin 0) =
      handleMetricsPrometheus (fun _ => "") (idleNode []) (.fin 0) (.fin 0) := by
    unfold handleMetricsPrometheus buildExtras
    rw [hnone, hlogin]
    rfl
  obtain ⟨page, hpage⟩ : ∃ page, handleMetricsPrometheus (fun _ => "") (idleNode []) (.fin 0) (.fin 0) = some page := by
    unfold handleMetricsPrometheus buildExtras
    rw [hnone]
    exact ⟨_, rfl⟩
  have hplain : PlainLabel "a" := ⟨by decide, by decide, by decide⟩
  refine ⟨page, hpage, hsame.trans hpage, ?_⟩
  exact ((metrics_page_lossless (fun _ => "") (idleNode []) (.fin 0) (.fin 0)).2.2 (idleNode [login]) (.fin 0) (.fin 0)).1
    page hplain hplain hpage (hsame.trans hpage)

end Mdrj.L6
