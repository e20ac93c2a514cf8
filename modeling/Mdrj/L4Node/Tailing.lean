import Mathlib
import Mdrj.Core.Runs
import Mdrj.Core.Segments
import Mdrj.L4Node.AuthLog

/-!
# Tailing a log that is being written

The writer appends to the log between two polls, at any byte; a poll parses
all that is there, the unfinished last line included, and goes on after it.
A line that is not complete at a poll is therefore read in pieces, and none
of them is the line.

The reports of a line name its offset and its text, so what a run of polls
returns tells which pieces it has read: it agrees with one poll over the
final log if and only if every line that was read in pieces is harmless
(`tailing_iff`): neither the line nor a piece of it is reported, or the first
piece has the whole text (only the line end was missing) and the others are
not reported.
-/
namespace Mdrj.L4.Tailing
open Mdrj.Core Mdrj.L1 Mdrj.L3 Mdrj.L4.Ingest

/-! ## What a line tells -/

/-- The time without a guessed year. -/
def yearless : Occurred → Occurred
  | .iso text => .iso text
  | .syslog _ rest => .syslog 0 rest

/-- A login or an escalation apart from `collected_at` and a guessed year; a
burst depends on the clock altogether. -/
def timeless : Ingest.Payload → Option Ingest.Payload
  | .adminSshLoginSuccess p =>
    some (.adminSshLoginSuccess { p with collectedAt := "", occurredAt := yearless p.occurredAt })
  | .failedLoginBurst _ => none
  | .privilegeEscalation p => some (.privilegeEscalation { p with collectedAt := "" })

section Lines
variable (host : Ingest.Host) (config : IngestConfig)

/-- When a login occurred, without a guessed year. -/
def occurred : Groups × Bool → Option Occurred
  | (groups, true) => (host.fromIsoFormat (groups.named "occurred_at")).map .iso
  | (groups, false) =>
    (syslogDate host (groups.named "month") (groups.named "day") (groups.named "clock")).map
      fun date => .syslog 0 date.2.2

/-- The report of a line, whatever the clock says. -/
def report (line : List Char) (lineOffset : Nat) : Option Ingest.Payload :=
  match acceptedLogin host line with
  | some found =>
    match privilegeScope host config (found.1.named "user"), occurred host found,
      intOfDigits host (found.1.named "port") with
    | some scope, some time, .ok port =>
      some (.adminSshLoginSuccess { loginPayload config line lineOffset found.1 scope time port "" with collectedAt := "" })
    | _, _, _ => none
  | none =>
    match (sshFailed host).search line with
    | some _ => none
    | none =>
      match openedSession host line with
      | some (mechanism, target, actor) =>
        if target = "root" then
          some (.privilegeEscalation { escalationPayload config line lineOffset mechanism actor "" with collectedAt := "" })
        else none
      | none => none

/-- The line is not reported. -/
def silent (line : List Char) : Bool := (report host config line 0).isNone

/-- The line stops the poll: a date or a number that Python refuses. -/
def raises (line : List Char) (now : Flt) (reading : Reading) : Bool :=
  match parseLine host config {} line 0 now reading with
  | .error _ => true
  | .ok _ => false

def lineText (line : List UInt8) : List Char := rstripNewline (decode line)

/-- The report of a segment of the log. -/
def reportAt (segment : Nat × List UInt8) : Option Ingest.Payload :=
  report host config (lineText segment.2) segment.1

/-- Reading a line in these pieces does no harm. -/
def Harmless (line : List UInt8) (pieces : List (Nat × List UInt8)) : Prop :=
  (silent host config (lineText line) = true ∧ ∀ p ∈ pieces, silent host config (lineText p.2) = true) ∨
  (pieces.head?.map fun first => lineText first.2) = some (lineText line) ∧
    ∀ p ∈ pieces.tail, silent host config (lineText p.2) = true

instance (line : List UInt8) (pieces : List (Nat × List UInt8)) : Decidable (Harmless host config line pieces) :=
  inferInstanceAs (Decidable (_ ∨ _))

end Lines

section Parsing
variable {host : Ingest.Host} {config : IngestConfig} {bursts bursts' : Bursts} {line : List Char} {lineOffset : Nat}
  {now : Flt} {reading : Reading} {payload : Option Ingest.Payload}

theorem yearless_of_parse {found : Groups × Bool} {time : Occurred}
    (h : parseTimestamp host reading found = .ok time) : occurred host found = some (yearless time) := by
  obtain ⟨groups, iso⟩ := found
  cases iso with
  | true =>
    simp only [parseTimestamp] at h
    split at h
    · next text htext =>
      obtain rfl := Except.ok.inj h
      simp only [occurred, htext, Option.map_some, yearless]
    · cases h
  | false =>
    simp only [parseTimestamp] at h
    split at h
    · cases h
    · next month day rest hdate =>
      have hoccurred : occurred host (groups, false) = some (.syslog 0 rest) := by
        simp only [occurred, hdate, Option.map_some]
      rw [hoccurred]
      split at h
      · cases h
      · split at h
        · split at h
          · cases h
          · obtain rfl := Except.ok.inj h
            rfl
        · obtain rfl := Except.ok.inj h
          rfl

theorem parseOther_report (hnot : acceptedLogin host line = none)
    (h : parseOther host config bursts line lineOffset now = .ok (bursts', payload)) :
    payload.bind timeless = report host config line lineOffset := by
  unfold parseOther at h
  unfold report
  rw [hnot]
  cases htime : host.fromTimestamp now with
  | none =>
    rw [htime] at h
    cases h
  | some collectedAt =>
    rw [htime] at h
    dsimp only at h ⊢
    cases hfailed : (sshFailed host).search line with
    | some groups =>
      rw [hfailed] at h
      dsimp only at h ⊢
      split at h
      · obtain ⟨-, rfl⟩ := Prod.mk.inj (Except.ok.inj h)
        rfl
      · obtain ⟨-, rfl⟩ := Prod.mk.inj (Except.ok.inj h)
        rfl
    | none =>
      rw [hfailed] at h
      dsimp only at h ⊢
      cases hsession : openedSession host line with
      | none =>
        rw [hsession] at h
        obtain ⟨-, rfl⟩ := Prod.mk.inj (Except.ok.inj h)
        rfl
      | some session =>
        obtain ⟨mechanism, target, actor⟩ := session
        rw [hsession] at h
        dsimp only at h ⊢
        split at h
        · obtain ⟨-, rfl⟩ := Prod.mk.inj (Except.ok.inj h)
          rw [if_pos ‹_›]
          rfl
        · obtain ⟨-, rfl⟩ := Prod.mk.inj (Except.ok.inj h)
          rw [if_neg ‹_›]
          rfl

/-- What the line of a login is parsed to. -/
theorem login_parsed {found : Groups × Bool} (hlogin : acceptedLogin host line = some found)
    (h : parseLine host config bursts line lineOffset now reading = .ok (bursts', payload)) : bursts' = bursts ∧
    (privilegeScope host config (found.1.named "user") = none ∧ payload = none ∨
      ∃ scope time port collectedAt, privilegeScope host config (found.1.named "user") = some scope ∧
        parseTimestamp host reading found = .ok time ∧ intOfDigits host (found.1.named "port") = .ok port ∧
        host.utcFromTimestamp now = some collectedAt ∧
        payload = some (.adminSshLoginSuccess
          (loginPayload config line lineOffset found.1 scope time port collectedAt))) := by
  unfold parseLine at h
  rw [hlogin] at h
  dsimp only at h
  cases hscope : privilegeScope host config (found.1.named "user") with
  | none =>
    rw [hscope] at h
    obtain ⟨rfl, rfl⟩ := Prod.mk.inj (Except.ok.inj h)
    exact ⟨rfl, .inl ⟨rfl, rfl⟩⟩
  | some scope =>
    rw [hscope] at h
    dsimp only at h
    cases htime : parseTimestamp host reading found with
    | error e =>
      rw [htime] at h
      cases h
    | ok time =>
      cases hport : intOfDigits host (found.1.named "port") with
      | error e =>
        rw [htime, hport] at h
        cases h
      | ok port =>
        rw [htime, hport] at h
        cases hutc : host.utcFromTimestamp now with
        | none =>
          rw [hutc] at h
          cases h
        | some collectedAt =>
          rw [hutc] at h
          obtain ⟨rfl, rfl⟩ := Prod.mk.inj (Except.ok.inj h)
          exact ⟨rfl, .inr ⟨scope, time, port, collectedAt, rfl, rfl, rfl, rfl, rfl⟩⟩

/-- A line that is parsed is reported as the line tells. -/
theorem parseLine_report
    (h : parseLine host config bursts line lineOffset now reading = .ok (bursts', payload)) :
    payload.bind timeless = report host config line lineOffset := by
  cases hlogin : acceptedLogin host line with
  | none =>
    unfold parseLine at h
    rw [hlogin] at h
    exact parseOther_report hlogin h
  | some found =>
    unfold report
    rw [hlogin]
    dsimp only
    rcases (login_parsed hlogin h).2 with ⟨hscope, rfl⟩ | ⟨scope, time, port, collectedAt, hscope, htime, hport, -, rfl⟩
    · rw [hscope]
      rfl
    · rw [hscope, yearless_of_parse htime, hport]
      rfl

/-- Whether a line raises depends neither on the bursts nor on its place. -/
theorem parseLine_returns (h : raises host config line now reading = false) (bursts : Bursts) (lineOffset : Nat) :
    ∃ bursts' payload, parseLine host config bursts line lineOffset now reading = .ok (bursts', payload) := by
  have hparsed : ∃ bursts' payload, parseLine host config {} line 0 now reading = .ok (bursts', payload) := by
    unfold raises at h
    split at h
    · cases h
    · next result hresult => exact ⟨result.1, result.2, hresult⟩
  obtain ⟨bursts₀, payload₀, hparsed⟩ := hparsed
  unfold parseLine
  cases hlogin : acceptedLogin host line with
  | none =>
    unfold parseLine at hparsed
    rw [hlogin] at hparsed
    unfold parseOther at hparsed ⊢
    cases htime : host.fromTimestamp now with
    | none =>
      rw [htime] at hparsed
      cases hparsed
    | some collectedAt =>
      dsimp only
      cases hfailed : (sshFailed host).search line with
      | some groups =>
        dsimp only
        split <;> exact ⟨_, _, rfl⟩
      | none =>
        dsimp only
        split
        · split <;> exact ⟨_, _, rfl⟩
        · exact ⟨_, _, rfl⟩
  | some found =>
    dsimp only
    rcases (login_parsed hlogin hparsed).2 with ⟨hscope, -⟩ | ⟨scope, time, port, collectedAt, hscope, htime, hport, hutc, -⟩
    · rw [hscope]
      exact ⟨_, _, rfl⟩
    · rw [hscope, htime, hport, hutc]
      exact ⟨_, _, rfl⟩

/-! ## A report names its line -/

def rawLineOf : Ingest.Payload → String
  | .adminSshLoginSuccess p => p.rawLine
  | .failedLoginBurst p => p.rawLine
  | .privilegeEscalation p => p.rawLine

def rawRefOf : Ingest.Payload → String
  | .adminSshLoginSuccess p => p.rawRef
  | .failedLoginBurst p => p.rawRef
  | .privilegeEscalation p => p.rawRef

theorem report_raw {reported : Ingest.Payload} (h : report host config line lineOffset = some reported) :
    rawLineOf reported = String.ofList line ∧ rawRefOf reported = rawRef config lineOffset := by
  unfold report at h
  split at h
  · split at h
    · obtain rfl := Option.some.inj h
      exact ⟨rfl, rfl⟩
    · cases h
  · split at h
    · cases h
    · split at h
      · split at h
        · obtain rfl := Option.some.inj h
          exact ⟨rfl, rfl⟩
        · cases h
      · cases h

theorem rawRef_inj {o o' : Nat} (h : rawRef config o = rawRef config o') : o = o' := by
  unfold rawRef at h
  have hdigits := String.append_right_inj (config.authLogPath ++ ":") |>.1 h
  exact Nat.repr_injective hdigits

theorem report_inj {line line' : List Char} {o o' : Nat} {reported : Ingest.Payload}
    (h : report host config line o = some reported) (h' : report host config line' o' = some reported) :
    line = line' ∧ o = o' := by
  obtain ⟨hline, href⟩ := report_raw h
  obtain ⟨hline', href'⟩ := report_raw h'
  exact ⟨String.ofList_inj.1 (hline.symm.trans hline'), rawRef_inj (href.symm.trans href')⟩

theorem silent_iff (line : List Char) (o : Nat) :
    silent host config line = true ↔ report host config line o = none := by
  unfold silent report
  cases acceptedLogin host line with
  | some found =>
    dsimp only
    split <;> simp
  | none =>
    dsimp only
    split
    · simp
    · split
      · split <;> simp
      · simp

end Parsing

/-! ## Runs of polls -/

/-- The ingestor, its state file, all it has returned, and the sizes of the
log at the polls that returned. -/
structure Tail where
  ingestor : Ingestor := {}
  saved : Option (Nat × Nat) := none
  returned : List Ingest.Payload := []
  sizes : List Nat := []

/-- A poll when the log has `size` bytes, or a restart. -/
inductive TailAct where
  | poll (size : Nat) (now : Flt) (readings : Nat → Reading)
  | restart

/-- `_load_state`: the inode and the offset last saved.
mirrors mdrj/linux_ingest.py:311-317 -/
def loadState : Option (Nat × Nat) → Ingestor
  | some (inode, offset) => { inode, offset }
  | none => {}

section Runs
variable (host : Ingest.Host) (config : IngestConfig) (inode : Nat) (log : AuthLog)

/-- mirrors mdrj/linux_ingest.py:106-133, 311-323 -/
def Tail.step (s : Tail) : TailAct → Tail
  | .poll size now readings =>
    match s.ingestor.poll host config inode (log.bytes.take size) now readings with
    | (ingestor, .ok payloads) =>
      { ingestor, saved := some (ingestor.inode, ingestor.offset), returned := s.returned ++ payloads,
        sizes := s.sizes ++ [size] }
    | (ingestor, .error _) => { s with ingestor }
  | .restart => { s with ingestor := loadState s.saved }

/-- The log has only grown, and no line that is read raises. -/
def Tail.Returns (s : Tail) : TailAct → Prop
  | .poll size now readings => s.ingestor.offset ≤ size ∧ size ≤ log.bytes.length ∧
    ∀ l ∈ linesFrom s.ingestor.offset (log.bytes.take size),
      raises host config (lineText l.2) now (readings l.1) = false
  | .restart => True

instance (s : Tail) (act : TailAct) : Decidable (s.Returns host config log act) :=
  match act with
  | .poll size now readings => inferInstanceAs (Decidable (s.ingestor.offset ≤ size ∧ size ≤ log.bytes.length ∧
      ∀ l ∈ linesFrom s.ingestor.offset (log.bytes.take size),
        raises host config (lineText l.2) now (readings l.1) = false))
  | .restart => .isTrue trivial

variable {host config inode log}

/-- The lines of a poll that returns are reported as they tell. -/
theorem readLines_report {now : Flt} {readings : Nat → Reading} {lines : List (Nat × List UInt8)} :
    ∀ {bursts bursts' : Bursts} {payloads : List Ingest.Payload},
      readLines host config now readings bursts lines = (bursts', .ok payloads) →
      payloads.filterMap timeless = lines.filterMap (reportAt host config) := by
  induction lines with
  | nil =>
    intro bursts bursts' payloads h
    obtain rfl := Except.ok.inj (Prod.mk.inj h).2
    rfl
  | cons l lines ih =>
    intro bursts bursts' payloads h
    obtain ⟨lineOffset, line⟩ := l
    rw [readLines] at h
    split at h
    · cases (Prod.mk.inj h).2
    · next bursts₁ payload hparse =>
      split at h
      · next bursts₂ rest hrest =>
        obtain rfl := Except.ok.inj (Prod.mk.inj h).2
        have hreport : payload.bind timeless = reportAt host config (lineOffset, line) := parseLine_report hparse
        rw [List.filterMap_append, ih hrest, List.filterMap_cons, ← hreport]
        cases payload with
        | none => rfl
        | some p =>
          cases htimeless : timeless p with
          | none => simp [htimeless]
          | some q => simp [htimeless]
      · cases (Prod.mk.inj h).2

theorem readLines_returns {now : Flt} {readings : Nat → Reading} {lines : List (Nat × List UInt8)}
    (h : ∀ l ∈ lines, raises host config (lineText l.2) now (readings l.1) = false) (bursts : Bursts) :
    ∃ bursts' payloads, readLines host config now readings bursts lines = (bursts', .ok payloads) := by
  induction lines generalizing bursts with
  | nil => exact ⟨bursts, [], rfl⟩
  | cons l lines ih =>
    obtain ⟨lineOffset, line⟩ := l
    obtain ⟨bursts₁, payload, hparse⟩ := parseLine_returns (h _ List.mem_cons_self) bursts lineOffset
    obtain ⟨bursts₂, payloads, hread⟩ := ih (fun l' hl' => h l' (List.mem_cons_of_mem _ hl')) bursts₁
    unfold lineText at hparse
    refine ⟨bursts₂, payload.toList ++ payloads, ?_⟩
    rw [readLines, hparse]
    dsimp only
    rw [hread]

theorem poll_report {s : Ingestor} {content : List UInt8} {now : Flt} {readings : Nat → Reading}
    (hinode : s.inode = inode ∨ s.offset = 0) (hsize : s.offset ≤ content.length)
    (h : ∀ l ∈ linesFrom s.offset content, raises host config (lineText l.2) now (readings l.1) = false) :
    ∃ bursts payloads, s.poll host config inode content now readings =
        ({ inode, offset := content.length, bursts }, .ok payloads) ∧
      payloads.filterMap timeless = (linesFrom s.offset content).filterMap (reportAt host config) := by
  have hoffset : (if s.inode ≠ inode ∨ content.length < s.offset then 0 else s.offset) = s.offset := by
    split
    · next hreset =>
      rcases hreset with hne | hlt
      · rcases hinode with heq | hzero
        · exact absurd heq hne
        · exact hzero.symm
      · omega
    · rfl
  obtain ⟨bursts, payloads, hread⟩ := readLines_returns h s.bursts
  refine ⟨bursts, payloads, ?_, readLines_report hread⟩
  unfold Ingestor.poll
  dsimp only
  rw [hoffset, hread]

/-- What a run has read: the log up to the offset, cut at the sizes. -/
structure Tail.Inv (host : Ingest.Host) (config : IngestConfig) (inode : Nat) (log : AuthLog) (s : Tail) : Prop where
  inode : s.ingestor.inode = inode ∨ s.ingestor.offset = 0
  offset : s.ingestor.offset ≤ log.bytes.length
  saved : (loadState s.saved).inode = s.ingestor.inode ∧ (loadState s.saved).offset = s.ingestor.offset
  sizes : ∀ n ∈ s.sizes, n ≤ s.ingestor.offset
  last : s.ingestor.offset = 0 ∨ s.ingestor.offset ∈ s.sizes
  returned : s.returned.filterMap timeless =
    (segments newline (fun p => decide (p ∈ s.sizes)) 0 (log.bytes.take s.ingestor.offset)).filterMap
      (reportAt host config)

/-- A part of the log read at one poll is not cut inside. -/
theorem segments_grow {sizes : List Nat} {bytes : List UInt8} {offset size : Nat} (hsizes : ∀ n ∈ sizes, n ≤ offset)
    (hlast : offset = 0 ∨ offset ∈ sizes) (hle : offset ≤ size) (hsize : size ≤ bytes.length) :
    segments newline (fun p => decide (p ∈ sizes ++ [size])) 0 (bytes.take size) =
      segments newline (fun p => decide (p ∈ sizes)) 0 (bytes.take offset) ++
        linesFrom offset (bytes.take size) := by
  have hsplit : bytes.take size = bytes.take offset ++ (bytes.take size).drop offset := by
    conv_lhs => rw [← List.take_append_drop offset (bytes.take size)]
    rw [List.take_take, Nat.min_eq_left hle]
  have hlength : (bytes.take offset).length = offset := by
    rw [List.length_take]
    omega
  have hold : segments newline (fun p => decide (p ∈ sizes ++ [size])) 0 (bytes.take offset) =
      segments newline (fun p => decide (p ∈ sizes)) 0 (bytes.take offset) := by
    refine segments_congr fun p _ hp => ?_
    rw [hlength] at hp
    have hne : p ≠ size := by omega
    simp [hne]
  have hnew : segments newline (fun p => decide (p ∈ sizes ++ [size])) offset ((bytes.take size).drop offset) =
      linesFrom offset (bytes.take size) := by
    refine segments_congr fun p hlow hhigh => ?_
    rw [List.length_drop, List.length_take] at hhigh
    have hne : p ≠ size := by omega
    have hnot : p ∉ sizes := fun hp => by
      have := hsizes p hp
      omega
    simp [hne, hnot]
  rcases hlast with hzero | hmem
  · subst hzero
    rw [List.take_zero, ← hnew]
    rfl
  · conv_lhs => rw [hsplit]
    rw [segments_append (by rw [hlength, Nat.zero_add]; simp [hmem]), hold, hlength, Nat.zero_add, hnew]

theorem Tail.step_inv (s : Tail) (act : TailAct) (h : s.Inv host config inode log)
    (hok : s.Returns host config log act) : (s.step host config inode log act).Inv host config inode log := by
  cases act with
  | restart =>
    have hload : (s.step host config inode log .restart).ingestor = loadState s.saved := rfl
    obtain ⟨hinode, hoffset⟩ := h.saved
    refine ⟨?_, ?_, ?_, ?_, ?_, ?_⟩
    · rw [hload, hinode, hoffset]
      exact h.inode
    · rw [hload, hoffset]
      exact h.offset
    · exact ⟨rfl, rfl⟩
    · rw [hload, hoffset]
      exact h.sizes
    · rw [hload, hoffset]
      exact h.last
    · rw [hload, hoffset]
      exact h.returned
  | poll size now readings =>
    obtain ⟨hle, hsize, hraises⟩ := hok
    have hlength : (log.bytes.take size).length = size := by
      rw [List.length_take]
      omega
    obtain ⟨bursts, payloads, hpoll, hreports⟩ := poll_report h.inode (by omega) hraises
    have hstep : s.step host config inode log (.poll size now readings) =
        { ingestor := { inode, offset := size, bursts }, saved := some (inode, size),
          returned := s.returned ++ payloads, sizes := s.sizes ++ [size] } := by
      rw [hlength] at hpoll
      simp only [Tail.step, hpoll]
    rw [hstep]
    refine ⟨.inl rfl, hsize, ⟨rfl, rfl⟩, ?_, .inr (by simp), ?_⟩
    · intro n hn
      rcases List.mem_append.1 hn with hn | hn
      · exact (h.sizes n hn).trans hle
      · rw [List.mem_singleton.1 hn]
    · dsimp only
      rw [List.filterMap_append, h.returned, hreports, segments_grow h.sizes h.last hle hsize, List.filterMap_append]

theorem Tail.start_inv : ({} : Tail).Inv host config inode log where
  inode := .inr rfl
  offset := Nat.zero_le _
  saved := ⟨rfl, rfl⟩
  sizes _ hn := absurd hn List.not_mem_nil
  last := .inl rfl
  returned := rfl

/-- The sizes of the log at the polls of a run. -/
def pollSizes : List TailAct → List Nat
  | [] => []
  | .poll size _ _ :: actions => size :: pollSizes actions
  | .restart :: actions => pollSizes actions

theorem sizes_run {actions : List TailAct} : ∀ {s : Tail}, s.Inv host config inode log →
    Admits (Tail.step host config inode log) (Tail.Returns host config log) s actions →
    (run (Tail.step host config inode log) s actions).sizes = s.sizes ++ pollSizes actions := by
  induction actions with
  | nil =>
    intro s _ _
    exact (List.append_nil _).symm
  | cons act actions ih =>
    intro s hinv hadmits
    have hrest := ih (s.step_inv act hinv hadmits.1) hadmits.2
    have hrun : run (Tail.step host config inode log) s (act :: actions) =
        run (Tail.step host config inode log) (s.step host config inode log act) actions := rfl
    rw [hrun, hrest]
    cases act with
    | restart => rfl
    | poll size now readings =>
      obtain ⟨hle, hsize, hraises⟩ := hadmits.1
      obtain ⟨bursts, payloads, hpoll, -⟩ := poll_report hinv.inode (by rw [List.length_take]; omega) hraises
      simp only [Tail.step, hpoll, pollSizes, List.append_assoc, List.singleton_append]

/-! ## The comparison -/

/-- A segment lies inside the line it is cut from. -/
theorem reportAt_own {lines : List (Nat × List UInt8)} {cut : Nat → Bool}
    (horder : lines.Pairwise fun s t => s.1 + s.2.length ≤ t.1) (hne : ∀ s ∈ lines, s.2 ≠ []) :
    lines.Pairwise fun a b => ∀ v,
      v ∈ (segments newline cut a.1 a.2).filterMap (reportAt host config) ∨ v ∈ (reportAt host config a).toList →
      ¬ (v ∈ (segments newline cut b.1 b.2).filterMap (reportAt host config) ∨
        v ∈ (reportAt host config b).toList) := by
  -- where the line of a report lies
  have hplace : ∀ s : Nat × List UInt8, s.2 ≠ [] → ∀ v,
      v ∈ (segments newline cut s.1 s.2).filterMap (reportAt host config) ∨ v ∈ (reportAt host config s).toList →
      ∃ line o, report host config line o = some v ∧ s.1 ≤ o ∧ o < s.1 + s.2.length := by
    intro s hs v hv
    rcases hv with hv | hv
    · obtain ⟨t, ht, hreport⟩ := List.mem_filterMap.1 hv
      obtain ⟨hlow, hhigh⟩ := segments_range ht
      exact ⟨_, t.1, hreport, hlow, hhigh⟩
    · have hpos := List.length_pos_iff.2 hs
      exact ⟨_, s.1, Option.mem_toList.1 hv, le_rfl, by omega⟩
  refine List.Pairwise.imp_of_mem ?_ horder
  intro a b ha hb hle v hva hvb
  obtain ⟨line, o, hreport, hlow, hhigh⟩ := hplace a (hne a ha) v hva
  obtain ⟨line', o', hreport', hlow', -⟩ := hplace b (hne b hb) v hvb
  obtain ⟨-, hsame⟩ := report_inj hreport hreport'
  omega

/-- Nothing is reported of silent segments. -/
theorem silent_segments_iff (l : List (Nat × List UInt8)) :
    (∀ s ∈ l, silent host config (lineText s.2) = true) ↔ l.filterMap (reportAt host config) = [] := by
  rw [List.filterMap_eq_nil_iff]
  exact forall₂_congr fun s _ => silent_iff _ s.1

/-- What is reported of a line and of its pieces is reported of the first
piece: only that one lies where the line does. -/
theorem first_reports {line : Nat × List UInt8} {cut : Nat → Bool} {piece : List UInt8}
    {rest : List (Nat × List UInt8)} {v : Ingest.Payload}
    (hpieces : segments newline cut line.1 line.2 = (line.1, piece) :: rest)
    (hline : reportAt host config line = some v)
    (hv : v ∈ ((line.1, piece) :: rest).filterMap (reportAt host config)) :
    reportAt host config (line.1, piece) = some v := by
  obtain ⟨t, ht, hreport⟩ := List.mem_filterMap.1 hv
  rcases List.mem_cons.1 ht with rfl | ht
  · exact hreport
  · have horder : (segments newline cut line.1 line.2).Pairwise fun s t => s.1 + s.2.length ≤ t.1 :=
      segments_order
    rw [hpieces] at horder
    have hle := (List.pairwise_cons.1 horder).1 t ht
    have hpos := List.length_pos_iff.2 (segments_first hpieces).2
    have hsame := (report_inj hreport hline).2
    dsimp only at hle
    omega

/-- A line read in pieces is reported as it should be if and only if the
pieces are harmless. -/
theorem reports_iff_harmless {line : Nat × List UInt8} {cut : Nat → Bool} (hne : line.2 ≠ []) :
    (segments newline cut line.1 line.2).filterMap (reportAt host config) = (reportAt host config line).toList ↔
      Harmless host config line.2 (segments newline cut line.1 line.2) := by
  cases hpieces : segments newline cut line.1 line.2 with
  | nil => exact absurd (segments_eq_nil hpieces) hne
  | cons first rest =>
    obtain ⟨o, piece⟩ := first
    obtain ⟨rfl, -⟩ := segments_first hpieces
    constructor
    · intro heq
      cases hline : reportAt host config line with
      | none =>
        rw [hline] at heq
        exact .inl ⟨(silent_iff _ line.1).2 hline, (silent_segments_iff _).2 heq⟩
      | some v =>
        rw [hline, Option.toList_some] at heq
        have hfirst : reportAt host config (line.1, piece) = some v :=
          first_reports hpieces hline (by rw [heq]; exact List.mem_singleton_self v)
        rw [List.filterMap_cons_some hfirst] at heq
        exact .inr ⟨congrArg some (report_inj hfirst hline).1, (silent_segments_iff rest).2 (List.cons.inj heq).2⟩
    · intro hharmless
      rcases hharmless with ⟨hline, hall⟩ | ⟨htext, hrest⟩
      · have hnone : reportAt host config line = none := (silent_iff _ line.1).1 hline
        rw [hnone, (silent_segments_iff _).1 hall]
        rfl
      · have hfirst : reportAt host config (line.1, piece) = reportAt host config line := by
          have hsame : lineText piece = lineText line.2 := Option.some.inj htext
          unfold reportAt
          rw [hsame]
        rw [List.filterMap_cons, hfirst, (silent_segments_iff rest).1 hrest]
        cases reportAt host config line <;> rfl

/-- **Polls against one poll.** A run of polls and restarts that reads the
whole log returns the logins and escalations of a single poll over it if and
only if every line that was read in pieces is harmless. -/
theorem tailing_iff (actions : List TailAct)
    (hreturns : Admits (Tail.step host config inode log) (Tail.Returns host config log) {} actions)
    (hall : (run (Tail.step host config inode log) {} actions).ingestor.offset = log.bytes.length)
    {now : Flt} {readings : Nat → Reading} {payloads : List Ingest.Payload}
    (hsingle : (Ingestor.poll host config {} inode log.bytes now readings).2 = .ok payloads) :
    (run (Tail.step host config inode log) {} actions).returned.filterMap timeless = payloads.filterMap timeless ↔
      ∀ line ∈ linesFrom 0 log.bytes, Harmless host config line.2
        (segments newline (fun p => decide (p ∈ pollSizes actions)) line.1 line.2) := by
  have hinv := run_invariant Tail.step_inv Tail.start_inv hreturns
  have hsizes : (run (Tail.step host config inode log) {} actions).sizes = pollSizes actions :=
    (sizes_run Tail.start_inv hreturns).trans (List.nil_append _)
  have hsingle' : payloads.filterMap timeless = (linesFrom 0 log.bytes).filterMap (reportAt host config) := by
    have hoffset : ∀ b : Prop, [Decidable b] → (if b then 0 else ({} : Ingestor).offset) = 0 := by
      intro b _
      split <;> rfl
    unfold Ingestor.poll at hsingle
    dsimp only at hsingle
    rw [hoffset] at hsingle
    split at hsingle
    · next hread =>
      obtain rfl := Except.ok.inj hsingle
      exact readLines_report hread
    · cases hsingle
  have hblocks : (linesFrom 0 log.bytes).filterMap (reportAt host config) =
      (linesFrom 0 log.bytes).flatMap fun line => (reportAt host config line).toList :=
    List.filterMap_eq_flatMap_toList _ _
  rw [hinv.returned, hall, hsizes, List.take_length, hsingle', hblocks, segments_cut, List.filterMap_flatMap]
  have hlines : segments newline (fun _ => false) 0 log.bytes = linesFrom 0 log.bytes := rfl
  rw [hlines]
  have hne : ∀ line ∈ linesFrom 0 log.bytes, line.2 ≠ [] := fun _ hline => segments_ne_nil hline
  have horder : (linesFrom 0 log.bytes).Pairwise fun s t => s.1 + s.2.length ≤ t.1 := segments_order
  rw [flatMap_eq_iff (reportAt_own horder hne)]
  exact forall₂_congr fun line hline => reports_iff_harmless (hne line hline)

end Runs

/-! ## A line that is being written -/

/-- A host whose texts and readings are those of the log below. -/
def asciiHost : Ingest.Host where
  digit c := if '0' ≤ c ∧ c ≤ '9' then some (c.toNat - 48) else none
  wordChar c := c.isAlphanum || c = '_'
  getpwnam _ := none
  getgrnam _ := none
  fromIsoFormat text := if text = "2026-04-04T10:28:50+03:00" then some text else none
  fromTimestamp t := if t = .fin 1000 then some "1970-01-01T00:16:40" else none
  utcFromTimestamp t := if t = .fin 1000 then some "1970-01-01T00:16:40" else none

def rootConfig : IngestConfig := { nodeId := "n", hostId := "n", authLogPath := "/var/log/auth.log" }

def loginLine : String :=
  "2026-04-04T10:28:50+03:00 h sshd[1]: Accepted publickey for root from 192.0.2.10 port 22 ssh2\n"

def loginLog : AuthLog where
  bytes := loginLine.toList.map fun c => UInt8.ofNat c.toNat
  noReturn := by decide +kernel

def thisYear : Nat → Reading := fun _ => ⟨2026, false⟩

/-- The log is read when the line is half written, and when it is complete. -/
def pollsAt (size : Nat) : List TailAct :=
  [.poll size (.fin 1000) thisYear, .restart, .poll loginLog.bytes.length (.fin 1000) thisYear]

theorem single_returns :
    ∃ payloads, (Ingestor.poll asciiHost rootConfig {} 7 loginLog.bytes (.fin 1000) thisYear).2 = .ok payloads ∧
      (payloads.filterMap timeless).length = 1 := by
  have hone : ((Ingestor.poll asciiHost rootConfig {} 7 loginLog.bytes (.fin 1000) thisYear).2.toOption.map
      fun payloads => (payloads.filterMap timeless).length) = some 1 := by decide +kernel
  cases hsingle : (Ingestor.poll asciiHost rootConfig {} 7 loginLog.bytes (.fin 1000) thisYear).2 with
  | error e =>
    rw [hsingle] at hone
    cases hone
  | ok payloads =>
    rw [hsingle] at hone
    exact ⟨payloads, rfl, Option.some.inj hone⟩

/-- If only the line end is missing at the first poll, nothing is lost. -/
theorem tailing_line_end :
    ∃ payloads, (Ingestor.poll asciiHost rootConfig {} 7 loginLog.bytes (.fin 1000) thisYear).2 = .ok payloads ∧
      (run (Tail.step asciiHost rootConfig 7 loginLog) {} (pollsAt 93)).returned.filterMap timeless =
        payloads.filterMap timeless := by
  obtain ⟨payloads, hsingle, -⟩ := single_returns
  have hreturns : Admits (Tail.step asciiHost rootConfig 7 loginLog) (Tail.Returns asciiHost rootConfig loginLog) {}
      (pollsAt 93) := by decide +kernel
  exact ⟨payloads, hsingle, (tailing_iff (pollsAt 93) hreturns (by decide +kernel) hsingle).2 (by decide +kernel)⟩

/-- A poll in the middle of the line loses the login of `root`. -/
theorem tailing_splits_line :
    Admits (Tail.step asciiHost rootConfig 7 loginLog) (Tail.Returns asciiHost rootConfig loginLog) {} (pollsAt 40) ∧
      (run (Tail.step asciiHost rootConfig 7 loginLog) {} (pollsAt 40)).ingestor.offset = loginLog.bytes.length ∧
      ∃ payloads, (Ingestor.poll asciiHost rootConfig {} 7 loginLog.bytes (.fin 1000) thisYear).2 = .ok payloads ∧
        (run (Tail.step asciiHost rootConfig 7 loginLog) {} (pollsAt 40)).returned.filterMap timeless ≠
          payloads.filterMap timeless := by
  have hlost : (run (Tail.step asciiHost rootConfig 7 loginLog) {} (pollsAt 40)).returned = [] := by decide +kernel
  obtain ⟨payloads, hsingle, hone⟩ := single_returns
  refine ⟨by decide +kernel, by decide +kernel, payloads, hsingle, fun heq => ?_⟩
  rw [← heq, hlost] at hone
  cases hone

end Mdrj.L4.Tailing
