import Mathlib
import Mdrj.L4Node.Collectors

/-!
# Watching processes

A poll reports the processes it has not seen at the poll before that are on
the blocklist or run under a privileged user. A process is known by its pid,
and it counts as seen as soon as it is listed, also if its entry could not
be read. An entry is read without its `exe` link if only the link cannot be
read.

**Results.**
* `scan_eq`: what a poll reports.
* `reported_once_iff`: a suspicious process that appears after the baseline is
  reported exactly once, by the first poll that can read its entry, if and
  only if its entry can never be read, or it can be read by the first poll
  that lists the process, with the `exe` link if the suspicion rests on it, and
  the poll before did not list the pid.
-/
namespace Mdrj.L4.ProcWatch
open Mdrj.Core Mdrj.L1 Mdrj.L3 Mdrj.L4.Collect

/-! ## Entries of `/proc` -/

structure ProcInfo where
  comm : String
  exe : String
  uid : Option Int

/-- The files of an entry, as far as they can be read. -/
structure ProcEntry where
  comm : Option String
  exe : Option String
  status : Option String

/-- Where `str.splitlines` ends a line. -/
def lineEnd (c : Char) : Bool := c.toNat ∈ [10, 11, 12, 13, 28, 29, 30, 0x85, 0x2028, 0x2029]

/-- `text.splitlines()`, up to empty lines. -/
def lines (text : String) : List (List Char) := text.toList.splitOnP lineEnd

/-- `line.split()`. -/
def words (line : List Char) : List (List Char) := (line.splitOnP isSpace).filter (· ≠ [])

/-- mirrors mdrj/collectors/linux_proc.py:24-37 -/
structure ProcConfig where
  blocklist : List String := ["xmrig", "minerd", "kdevtmpfsi", "kinsing", "tsunami"]
  privilegedUids : List Int := [0]

section Polls
variable (host : Ingest.Host) (lower : String → String) (config : ProcConfig) (agent : Agent)

/-- `int(text)`: decimal digits, single underscores between them, and a sign. -/
def toInt (text : List Char) : Option Int :=
  let unsigned := if text.head? = some '-' ∨ text.head? = some '+' then text.tail else text
  let groups := unsigned.splitOn '_'
  if groups.any (·.isEmpty) ∨ groups.flatten.any (fun c => !Ingest.isDigit host c) ∨
      4300 < groups.flatten.length then none
  else
    let n : Int := (groups.flatten.foldl (fun n c => n * 10 + (host.digit c).getD 0) 0 : Nat)
    some (if text.head? = some '-' then -n else n)

/-- The number in the first `Uid:` line. -/
def uidOf (status : String) : Except PyError (Option Int) :=
  match (lines status).find? fun line => "Uid:".toList.isPrefixOf line with
  | none => .ok none
  | some line =>
    match words line with
    | _ :: word :: _ =>
      match toInt host word with
      | some uid => .ok (some uid)
      | none => .error (.valueError "invalid literal for int() with base 10")
    | _ => .ok none

/-- mirrors mdrj/collectors/linux_proc.py:132-153 -/
def readProc (entry : ProcEntry) : Except PyError (Option ProcInfo) :=
  match entry.comm, entry.status with
  | some comm, some status =>
    match uidOf host status with
    | .ok uid => .ok (some ⟨strip comm, entry.exe.getD "", uid⟩)
    | .error e => .error e
  | _, _ => .ok none

/-! ## Polls -/

/-- `exe.rsplit("/", 1)[-1]`. -/
def baseName (exe : String) : String :=
  String.ofList ((exe.toList.reverse.takeWhile (· ≠ '/')).reverse)

def blocklistLower : List String := (config.blocklist.filter (· ≠ "")).map lower

/-- What is reported of a process.
mirrors mdrj/collectors/linux_proc.py:80-112 -/
def suspicion (pid : Nat) (info : ProcInfo) : Option CollectedEvent :=
  let exeBasename := lower (baseName info.exe)
  let comm := lower info.comm
  let blocked := blocklistLower lower config
  let uid := (info.uid.map Json.int).getD .null
  if exeBasename ≠ "" ∧ exeBasename ∈ blocked ∨ comm ∈ blocked then
    some (agent.annotate {
      eventKind := "known_malicious_process"
      payload := [("category", .str "malware"), ("pid", .int pid), ("exe", .str info.exe), ("comm", .str info.comm),
        ("uid", uid), ("matched", .str (if exeBasename ∈ blocked then exeBasename else comm))] })
  else if info.uid.any (· ∈ config.privilegedUids) then
    some (agent.annotate {
      eventKind := "privileged_process_started"
      payload := [("category", .str "process"), ("pid", .int pid), ("exe", .str info.exe), ("comm", .str info.comm),
        ("uid", uid)] })
  else none

/-- `enabled` tells whether `/proc` was there when the collector was made. -/
structure Proc where
  enabled : Bool
  seenPids : List Nat := []
  firstPoll : Bool := true

/-- The loop over the pids. -/
def scan (s : Proc) (entry : Nat → ProcEntry) : List Nat → Except PyError (List CollectedEvent)
  | [] => .ok []
  | pid :: rest =>
    if pid ∈ s.seenPids then scan s entry rest
    else
      match readProc host (entry pid) with
      | .error e => .error e
      | .ok none => scan s entry rest
      | .ok (some info) =>
        if s.firstPoll then scan s entry rest
        else
          match scan s entry rest with
          | .ok events => .ok ((suspicion lower config agent pid info).toList ++ events)
          | .error e => .error e

/-- mirrors mdrj/collectors/linux_proc.py:64-120 -/
def Proc.poll (s : Proc) (pids : List Nat) (entry : Nat → ProcEntry) :
    Proc × Except PyError (List CollectedEvent) :=
  if !s.enabled then (s, .ok [])
  else match scan host lower config agent s entry pids with
    | .ok events => ({ s with seenPids := pids, firstPoll := false }, .ok events)
    | .error e => (s, .error e)

/-- A process table: each pid is listed once, and each entry can be read or
not. -/
structure ProcTable where
  pids : List Nat
  entry : Nat → ProcEntry
  nodup : pids.Nodup
  reads : ∀ pid, ∃ found, readProc host (entry pid) = .ok found

/-- What an entry tells; nothing if it cannot be read. -/
def infoOf (entry : ProcEntry) : Option ProcInfo :=
  match readProc host entry with
  | .ok found => found
  | .error _ => none

/-- What a poll reports of one pid. -/
def found (s : Proc) (entry : Nat → ProcEntry) (pid : Nat) : List CollectedEvent :=
  if pid ∈ s.seenPids ∨ s.firstPoll = true then []
  else match infoOf host (entry pid) with
    | some info => (suspicion lower config agent pid info).toList
    | none => []

/-- The event is about the pid. -/
def tells (pid : Nat) (event : CollectedEvent) : Bool :=
  match Dict.get event.payload "pid" with
  | some (.int n) => n = pid
  | _ => false

end Polls

section Lemmas
variable {host : Ingest.Host} {lower : String → String} {config : ProcConfig} {agent : Agent} {s : Proc}
  {entry : Nat → ProcEntry}

theorem found_seen {pid : Nat} (h : pid ∈ s.seenPids ∨ s.firstPoll = true) :
    found host lower config agent s entry pid = [] := if_pos h

/-- A pid that is new, at a poll that is not the first, is reported for what
its entry tells. -/
theorem found_new {pid : Nat} (hnew : pid ∉ s.seenPids) (hlater : ¬ s.firstPoll = true) :
    found host lower config agent s entry pid = match infoOf host (entry pid) with
      | some info => (suspicion lower config agent pid info).toList
      | none => [] := if_neg fun h => h.elim hnew hlater

theorem infoOf_of_read {e : ProcEntry} {info : Option ProcInfo} (h : readProc host e = .ok info) :
    infoOf host e = info := by
  unfold infoOf
  rw [h]

/-- **What a poll reports**, pid by pid. -/
theorem scan_eq (hreads : ∀ pid, ∃ found, readProc host (entry pid) = .ok found) (pids : List Nat) :
    scan host lower config agent s entry pids = .ok (pids.flatMap (found host lower config agent s entry)) := by
  induction pids with
  | nil => rfl
  | cons pid rest ih =>
    obtain ⟨info, hinfo⟩ := hreads pid
    rw [List.flatMap_cons]
    unfold scan
    rw [hinfo, ih]
    by_cases hseen : pid ∈ s.seenPids
    · rw [if_pos hseen, found_seen (.inl hseen), List.nil_append]
    · rw [if_neg hseen]
      by_cases hfirst : s.firstPoll = true
      · rw [found_seen (.inr hfirst), List.nil_append]
        cases info with
        | none => rfl
        | some info => exact if_pos hfirst
      · rw [found_new hseen hfirst, infoOf_of_read hinfo]
        cases info with
        | none => rfl
        | some info => exact if_neg hfirst

theorem suspicion_tells {pid : Nat} {info : ProcInfo} {event : CollectedEvent}
    (h : suspicion lower config agent pid info = some event) (other : Nat) : tells other event = decide (pid = other) := by
  have hpid : Dict.get event.payload "pid" = some (.int pid) := by
    unfold suspicion at h
    dsimp only at h
    split at h
    · obtain rfl := Option.some.inj h
      exact Agent.annotate_get rfl
    · split at h
      · obtain rfl := Option.some.inj h
        exact Agent.annotate_get rfl
      · cases h
  unfold tells
  rw [hpid]
  simp

/-- What a poll reports of one pid is about that pid. -/
theorem found_tells {pid : Nat} {event : CollectedEvent} (h : event ∈ found host lower config agent s entry pid)
    (other : Nat) : tells other event = decide (pid = other) := by
  unfold found at h
  split at h
  · exact absurd h List.not_mem_nil
  · split at h
    · exact suspicion_tells (Option.mem_toList.1 h) other
    · exact absurd h List.not_mem_nil

/-- How often a poll reports a pid. -/
theorem countP_reports {pids : List Nat} (hpids : pids.Nodup) (pid : Nat) :
    (pids.flatMap (found host lower config agent s entry)).countP (tells pid) =
      if pid ∈ pids then (found host lower config agent s entry pid).length else 0 := by
  induction pids with
  | nil => rfl
  | cons other rest ih =>
    obtain ⟨hother, hrest⟩ := List.nodup_cons.1 hpids
    rw [List.flatMap_cons, List.countP_append, ih hrest]
    by_cases heq : other = pid
    · subst heq
      have hall : ∀ event ∈ found host lower config agent s entry other, tells other event = true := by
        intro event hevent
        rw [found_tells hevent, decide_eq_true rfl]
      rw [List.countP_eq_length.2 hall, if_neg hother, if_pos List.mem_cons_self, Nat.add_zero]
    · have hnone : ∀ event ∈ found host lower config agent s entry other, ¬ tells pid event = true := by
        intro event hevent
        rw [found_tells hevent, decide_eq_false heq]
        decide
      have hmem : pid ∈ other :: rest ↔ pid ∈ rest := by simp [Ne.symm heq]
      rw [List.countP_eq_zero.2 hnone, Nat.zero_add]
      simp only [hmem]

/-- A poll of a process table returns, and remembers the pids. -/
theorem poll_table (table : ProcTable host) (henabled : s.enabled = true) :
    s.poll host lower config agent table.pids table.entry =
      ({ s with seenPids := table.pids, firstPoll := false },
        .ok (table.pids.flatMap (found host lower config agent s table.entry))) := by
  unfold Proc.poll
  rw [henabled, scan_eq table.reads]
  rfl

end Lemmas

/-- The same pids again: nothing is reported. -/
theorem scan_seen {host : Ingest.Host} {lower : String → String} {config : ProcConfig} {agent : Agent} {s : Proc}
    {entry : Nat → ProcEntry} {pids : List Nat} (h : ∀ pid ∈ pids, pid ∈ s.seenPids) :
    scan host lower config agent s entry pids = .ok [] := by
  induction pids with
  | nil => rfl
  | cons pid rest ih =>
    obtain ⟨hpid, hrest⟩ := List.forall_mem_cons.1 h
    unfold scan
    rw [if_pos hpid, ih hrest]

/-- The watch as a collector. -/
def procCollector (host : Ingest.Host) (lower : String → String) (config : ProcConfig) (agent : Agent) :
    Collector Proc (List Nat × (Nat → ProcEntry)) where
  poll s table := s.poll host lower config agent table.1 table.2
  settles {s table s' events} h := by
    refine ⟨table, ?_⟩
    unfold Proc.poll at h ⊢
    split at h
    · next hdisabled =>
      obtain ⟨rfl, -⟩ := Prod.mk.inj h
      rw [if_pos hdisabled]
    · next henabled =>
      split at h
      · obtain ⟨rfl, -⟩ := Prod.mk.inj h
        rw [if_neg henabled, scan_seen fun _ hpid => hpid]
      · cases (Prod.mk.inj h).2

/-! ## A sequence of polls -/

section Sequences
variable (host : Ingest.Host) (lower : String → String) (config : ProcConfig) (agent : Agent) (enabled : Bool)
  (tables : Nat → ProcTable host)

/-- The collector before a poll. -/
def Proc.before : Nat → Proc
  | 0 => { enabled }
  | k + 1 => ((Proc.before k).poll host lower config agent (tables k).pids (tables k).entry).1

/-- What a poll returns. -/
def Proc.returned (k : Nat) : Except PyError (List CollectedEvent) :=
  ((Proc.before host lower config agent enabled tables k).poll host lower config agent
    (tables k).pids (tables k).entry).2

/-- How often a poll reports the pid. -/
def reports (pid k : Nat) : Nat :=
  match Proc.returned host lower config agent enabled tables k with
  | .ok events => events.countP (tells pid)
  | .error _ => 0

/-- Each file of the entry, if it can be read, is the one of a process with this
`comm`, `exe` and uid. -/
structure Shows (entry : ProcEntry) (info : ProcInfo) : Prop where
  comm : ∀ text, entry.comm = some text → strip text = info.comm
  exe : ∀ link, entry.exe = some link → link = info.exe
  uid : ∀ text, entry.status = some text → uidOf host text = .ok info.uid

/-- A process that lives from poll `first` to poll `last`: its pid is listed,
its entry shows it, each file whenever it can be read, and it is suspicious. It
appears after the baseline. -/
structure Process where
  pid : Nat
  first : Nat
  last : Nat
  info : ProcInfo
  appears : 0 < first
  listed : ∀ k, first ≤ k → k ≤ last → pid ∈ (tables k).pids
  constant : ∀ k, first ≤ k → k ≤ last → Shows host ((tables k).entry pid) info
  suspicious : suspicion lower config agent pid info ≠ none

end Sequences

section Sequences
variable {host : Ingest.Host} {lower : String → String} {config : ProcConfig} {agent : Agent} {enabled : Bool}
  {tables : Nat → ProcTable host}

/-- The poll can read the entry of the process. -/
def Process.Readable (p : Process host lower config agent tables) (k : Nat) : Prop :=
  (infoOf host ((tables k).entry p.pid)).isSome = true

instance (p : Process host lower config agent tables) (k : Nat) : Decidable (p.Readable k) :=
  inferInstanceAs (Decidable (_ = true))

/-- The poll can read the `exe` link, or the process is suspicious without
it. -/
def Process.Telling (p : Process host lower config agent tables) (k : Nat) : Prop :=
  ((tables k).entry p.pid).exe.isSome = true ∨
    (suspicion lower config agent p.pid { p.info with exe := "" }).isSome = true

instance (p : Process host lower config agent tables) (k : Nat) : Decidable (p.Telling k) :=
  inferInstanceAs (Decidable (_ ∨ _))

/-- The poll is the first that can read the entry. -/
def Process.FirstReadable (p : Process host lower config agent tables) (k : Nat) : Prop :=
  p.Readable k ∧ ∀ m, p.first ≤ m → m < k → ¬ p.Readable m

/-- Exactly one report, by the first poll that can read the entry. -/
def Process.ReportedOnce (p : Process host lower config agent tables) (enabled : Bool) : Prop :=
  ∀ k, p.first ≤ k → k ≤ p.last →
    (p.FirstReadable k → reports host lower config agent enabled tables p.pid k = 1) ∧
    (¬ p.FirstReadable k → reports host lower config agent enabled tables p.pid k = 0)

/-- What is read of an entry: a link that cannot be read counts as empty. -/
theorem Shows.read {entry : ProcEntry} {info read : ProcInfo} (h : Shows host entry info)
    (hread : infoOf host entry = some read) :
    read = if entry.exe.isSome = true then info else { info with exe := "" } := by
  unfold infoOf readProc at hread
  cases hcomm : entry.comm with
  | none => simp [hcomm] at hread
  | some comm =>
    cases hstatus : entry.status with
    | none => simp [hcomm, hstatus] at hread
    | some status =>
      simp only [hcomm, hstatus, h.uid status hstatus, h.comm comm hcomm, Option.some.injEq] at hread
      rw [← hread]
      cases hexe : entry.exe with
      | none => rfl
      | some link =>
        rw [Option.getD_some, h.exe link hexe]
        rfl

/-- How often an entry that can be read is reported. -/
theorem Process.suspicion_length (p : Process host lower config agent tables) {k : Nat} (hfirst : p.first ≤ k)
    (hlast : k ≤ p.last) {read : ProcInfo} (hread : infoOf host ((tables k).entry p.pid) = some read) :
    (suspicion lower config agent p.pid read).toList.length = if p.Telling k then 1 else 0 := by
  have hlength : ∀ event : Option CollectedEvent, event.toList.length = if event.isSome = true then 1 else 0 := by
    intro event
    cases event <;> rfl
  rw [hlength, (p.constant k hfirst hlast).read hread]
  by_cases hexe : ((tables k).entry p.pid).exe.isSome = true
  · have htelling : p.Telling k := .inl hexe
    rw [if_pos hexe, if_pos htelling, if_pos (Option.isSome_iff_ne_none.2 p.suspicious)]
  · have htelling : p.Telling k ↔
        (suspicion lower config agent p.pid { p.info with exe := "" }).isSome = true :=
      or_iff_right hexe
    rw [if_neg hexe]
    exact if_congr htelling.symm rfl rfl

/-- After a poll, its pids are the seen ones. -/
theorem before_succ (k : Nat) : Proc.before host lower config agent true tables (k + 1) =
    { enabled := true, seenPids := (tables k).pids, firstPoll := false } := by
  induction k with
  | zero =>
    unfold Proc.before
    rw [poll_table (tables 0) rfl]
    rfl
  | succ k ih =>
    unfold Proc.before
    rw [ih, poll_table (tables (k + 1)) rfl]

theorem before_disabled (k : Nat) : Proc.before host lower config agent false tables k = { enabled := false } := by
  induction k with
  | zero => rfl
  | succ k ih =>
    unfold Proc.before
    rw [ih]
    rfl

theorem reports_disabled (pid k : Nat) : reports host lower config agent false tables pid k = 0 := by
  unfold reports Proc.returned
  rw [before_disabled]
  rfl

/-- A listed pid is reported if the poll before did not list it, for what its
entry tells. -/
theorem reports_succ {pid k : Nat} (hlisted : pid ∈ (tables (k + 1)).pids) :
    reports host lower config agent true tables pid (k + 1) =
      if pid ∈ (tables k).pids then 0
      else match infoOf host ((tables (k + 1)).entry pid) with
        | some info => (suspicion lower config agent pid info).toList.length
        | none => 0 := by
  unfold reports Proc.returned
  rw [before_succ, poll_table (tables (k + 1)) rfl]
  dsimp only
  rw [countP_reports (tables (k + 1)).nodup, if_pos hlisted]
  split
  · next hseen =>
    rw [found_seen (.inl hseen)]
    rfl
  · next hnew =>
    rw [found_new hnew Bool.false_ne_true]
    split <;> rfl

/-- An enabled collector reports the process at most at the first poll that
lists it. -/
theorem Process.reports_enabled (p : Process host lower config agent tables) {k : Nat} (hfirst : p.first ≤ k)
    (hlast : k ≤ p.last) : reports host lower config agent true tables p.pid k =
      if k = p.first ∧ p.pid ∉ (tables (p.first - 1)).pids ∧ p.Readable k ∧ p.Telling k then 1 else 0 := by
  obtain ⟨m, rfl⟩ : ∃ m, k = m + 1 := Nat.exists_eq_succ_of_ne_zero (by have := p.appears; omega)
  rw [reports_succ (p.listed _ hfirst hlast)]
  have hlength : (match infoOf host ((tables (m + 1)).entry p.pid) with
      | some info => (suspicion lower config agent p.pid info).toList.length
      | none => 0) = if p.Readable (m + 1) ∧ p.Telling (m + 1) then 1 else 0 := by
    cases hinfo : infoOf host ((tables (m + 1)).entry p.pid) with
    | none =>
      have hnot : ¬ p.Readable (m + 1) := by
        unfold Process.Readable
        rw [hinfo]
        decide
      rw [if_neg fun h => hnot h.1]
    | some read =>
      have hreadable : p.Readable (m + 1) := by
        unfold Process.Readable
        rw [hinfo]
        rfl
      dsimp only
      rw [p.suspicion_length hfirst hlast hinfo]
      exact if_congr (and_iff_right hreadable).symm rfl rfl
  rw [hlength]
  rcases Nat.lt_or_ge p.first (m + 1) with hlater | hsame
  · -- the poll before has listed the process itself
    rw [if_pos (p.listed m (by omega) (by omega)), if_neg fun h => by omega]
  · obtain rfl : m = p.first - 1 := by omega
    by_cases hseen : p.pid ∈ (tables (p.first - 1)).pids
    · rw [if_pos hseen, if_neg fun h => h.2.1 hseen]
    · have hbefore : p.first - 1 + 1 = p.first := by omega
      rw [if_neg hseen]
      exact if_congr ⟨fun h => ⟨hbefore, hseen, h⟩, fun h => h.2.2⟩ rfl rfl

/-- When a poll reports the process. -/
theorem Process.reports_eq (p : Process host lower config agent tables) {k : Nat} (hfirst : p.first ≤ k)
    (hlast : k ≤ p.last) : reports host lower config agent enabled tables p.pid k =
      if enabled = true ∧ k = p.first ∧ p.pid ∉ (tables (p.first - 1)).pids ∧ p.Readable k ∧ p.Telling k
      then 1 else 0 := by
  cases enabled with
  | false => exact (reports_disabled p.pid k).trans (if_neg fun h => Bool.false_ne_true h.1).symm
  | true =>
    rw [p.reports_enabled hfirst hlast]
    simp only [true_and]

/-- What some poll can read is first read by one. -/
theorem Process.exists_firstReadable (p : Process host lower config agent tables)
    (h : ∃ k, p.first ≤ k ∧ k ≤ p.last ∧ p.Readable k) :
    ∃ k, p.first ≤ k ∧ k ≤ p.last ∧ p.FirstReadable k := by
  obtain ⟨hfirst, hlast, hreadable⟩ := Nat.find_spec h
  refine ⟨Nat.find h, hfirst, hlast, hreadable, fun m hm hlt hread => ?_⟩
  exact Nat.find_min h hlt ⟨hm, by omega, hread⟩

/-- **Suspicious processes.** A process that appears after the baseline is
reported exactly once, by the first poll that can read its entry, if and only
if its entry can never be read, or `/proc` is there, the first poll that lists
the process can read its entry, with the `exe` link unless the process is
suspicious without it, and the poll before did not list the pid. -/
theorem reported_once_iff (p : Process host lower config agent tables) :
    p.ReportedOnce enabled ↔
      (∀ k, p.first ≤ k → k ≤ p.last → ¬ p.Readable k) ∨
      (enabled = true ∧ p.Readable p.first ∧ p.Telling p.first ∧ p.pid ∉ (tables (p.first - 1)).pids) := by
  constructor
  · intro h
    by_cases hex : ∃ k, p.first ≤ k ∧ k ≤ p.last ∧ p.Readable k
    · obtain ⟨k, hfirst, hlast, hleast⟩ := p.exists_firstReadable hex
      have hone := (h k hfirst hlast).1 hleast
      rw [p.reports_eq hfirst hlast] at hone
      split at hone
      · next hcond =>
        obtain ⟨henabled, heq, hnew, hreadable, htelling⟩ := hcond
        rw [heq] at hreadable htelling
        exact .inr ⟨henabled, hreadable, htelling, hnew⟩
      · cases hone
    · exact .inl fun k hfirst hlast hreadable => hex ⟨k, hfirst, hlast, hreadable⟩
  · intro h k hfirst hlast
    rw [p.reports_eq hfirst hlast]
    rcases h with hnever | ⟨henabled, hreadable, htelling, hnew⟩
    · refine ⟨fun hleast => absurd hleast.1 (hnever k hfirst hlast), fun _ => ?_⟩
      exact if_neg fun hcond => hnever k hfirst hlast hcond.2.2.2.1
    · constructor
      · intro hleast
        have hk : k = p.first := by
          by_contra hne
          exact hleast.2 p.first le_rfl (by omega) hreadable
        exact if_pos ⟨henabled, hk, hnew, hleast.1, hk ▸ htelling⟩
      · intro hnot
        refine if_neg fun hcond => hnot ⟨hcond.2.2.2.1, fun m hm hlt _ => ?_⟩
        have := hcond.2.1
        omega

end Sequences

/-! ## A miner -/

def procHost : Ingest.Host where
  digit c := if '0' ≤ c ∧ c ≤ '9' then some (c.toNat - 48) else none
  wordChar _ := false
  getpwnam _ := none
  getgrnam _ := none
  fromIsoFormat _ := none
  fromTimestamp _ := none
  utcFromTimestamp _ := none

def miner : ProcEntry := ⟨some "xmrig\n", some "/tmp/xmrig", some "Name:\txmrig\nUid:\t1000\t1000\t1000\t1000\n"⟩
def editor : ProcEntry := ⟨some "vi\n", some "/usr/bin/vi", some "Name:\tvi\nUid:\t1000\t1000\t1000\t1000\n"⟩
def vanished : ProcEntry := ⟨none, none, none⟩

def minerInfo : ProcInfo := ⟨"xmrig", "/tmp/xmrig", some 1000⟩

theorem read_miner : readProc procHost miner = .ok (some minerInfo) := rfl

theorem read_editor : ∃ found, readProc procHost editor = .ok found := ⟨_, rfl⟩

def listing (pids : List Nat) (hpids : pids.Nodup) (entry : ProcEntry)
    (hreads : ∃ found, readProc procHost entry = .ok found) : ProcTable procHost :=
  ⟨pids, fun _ => entry, hpids, fun _ => hreads⟩

def nobody : ProcTable procHost := listing [] List.nodup_nil vanished ⟨none, rfl⟩
def hidden : ProcTable procHost := listing [7] (List.nodup_singleton 7) vanished ⟨none, rfl⟩
def editing : ProcTable procHost := listing [7] (List.nodup_singleton 7) editor read_editor
def mining : ProcTable procHost := listing [7] (List.nodup_singleton 7) miner ⟨_, read_miner⟩

def agent : Agent := ⟨"n", "n"⟩

theorem miner_suspicious : suspicion id {} agent 7 minerInfo ≠ none := by
  have hsome : (suspicion id {} agent 7 minerInfo).isSome = true := by decide +kernel
  rw [Option.isSome_iff_ne_none] at hsome
  exact hsome

theorem miner_shows : Shows procHost miner minerInfo where
  comm text h := by
    obtain rfl := Option.some.inj h
    rfl
  exe link h := by
    obtain rfl := Option.some.inj h
    rfl
  uid text h := by
    obtain rfl := Option.some.inj h
    rfl

theorem vanished_shows : Shows procHost vanished minerInfo where
  comm _ h := by cases h
  exe _ h := by cases h
  uid _ h := by cases h

/-- The miner is there from the second poll on. -/
def started : Nat → ProcTable procHost
  | 0 => nobody
  | _ => mining

def startedMiner : Process procHost id {} agent started where
  pid := 7
  first := 1
  last := 2
  info := minerInfo
  appears := by decide
  listed k hfirst hlast := by
    interval_cases k
    · exact List.mem_singleton_self 7
    · exact List.mem_singleton_self 7
  constant k hfirst hlast := by
    interval_cases k
    · exact miner_shows
    · exact miner_shows
  suspicious := miner_suspicious

theorem started_reported_once : startedMiner.ReportedOnce true :=
  reported_once_iff startedMiner |>.2 (.inr ⟨rfl, rfl, .inl rfl, List.not_mem_nil⟩)

/-- The first poll that lists the miner cannot read its entry. -/
def raced : Nat → ProcTable procHost
  | 0 => nobody
  | 1 => hidden
  | _ => mining

def racedMiner : Process procHost id {} agent raced where
  pid := 7
  first := 1
  last := 2
  info := minerInfo
  appears := by decide
  listed k hfirst hlast := by
    interval_cases k
    · exact List.mem_singleton_self 7
    · exact List.mem_singleton_self 7
  constant k hfirst hlast := by
    interval_cases k
    · exact vanished_shows
    · exact miner_shows
  suspicious := miner_suspicious

/-- The miner has the pid of an editor that ended between two polls. -/
def reused : Nat → ProcTable procHost
  | 0 => editing
  | _ => mining

def reusedMiner : Process procHost id {} agent reused where
  pid := 7
  first := 1
  last := 1
  info := minerInfo
  appears := by decide
  listed k hfirst hlast := by
    interval_cases k
    exact List.mem_singleton_self 7
  constant k hfirst hlast := by
    interval_cases k
    exact miner_shows
  suspicious := miner_suspicious

/-- A miner under another name, whose `exe` link cannot be read at first. -/
def renamed : ProcEntry := ⟨some "worker\n", some "/tmp/xmrig", some "Name:\tworker\nUid:\t1000\t1000\t1000\t1000\n"⟩
def unlinked : ProcEntry := { renamed with exe := none }

def renamedInfo : ProcInfo := ⟨"worker", "/tmp/xmrig", some 1000⟩

theorem renamed_suspicious : suspicion id {} agent 7 renamedInfo ≠ none := by
  have hsome : (suspicion id {} agent 7 renamedInfo).isSome = true := by decide +kernel
  rw [Option.isSome_iff_ne_none] at hsome
  exact hsome

theorem renamed_shows (exe : Option String) (hexe : ∀ link, exe = some link → link = "/tmp/xmrig") :
    Shows procHost { renamed with exe := exe } renamedInfo where
  comm text h := by
    obtain rfl := Option.some.inj h
    rfl
  exe := hexe
  uid text h := by
    obtain rfl := Option.some.inj h
    rfl

def concealed : Nat → ProcTable procHost
  | 0 => nobody
  | 1 => listing [7] (List.nodup_singleton 7) unlinked ⟨_, rfl⟩
  | _ => listing [7] (List.nodup_singleton 7) renamed ⟨_, rfl⟩

def concealedMiner : Process procHost id {} agent concealed where
  pid := 7
  first := 1
  last := 2
  info := renamedInfo
  appears := by decide
  listed k hfirst hlast := by
    interval_cases k
    · exact List.mem_singleton_self 7
    · exact List.mem_singleton_self 7
  constant k hfirst hlast := by
    interval_cases k
    · exact renamed_shows none fun _ h => by cases h
    · exact renamed_shows (some "/tmp/xmrig") fun _ h => (Option.some.inj h).symm
  suspicious := renamed_suspicious

/-- None of the three is reported. -/
theorem miner_missed : ¬ racedMiner.ReportedOnce true ∧ ¬ reusedMiner.ReportedOnce true ∧
    ¬ concealedMiner.ReportedOnce true := by
  refine ⟨?_, ?_, ?_⟩
  · intro h
    have hleast : racedMiner.FirstReadable 2 := by
      refine ⟨rfl, fun m hfirst hm => ?_⟩
      obtain rfl : m = 1 := by
        have hone : 1 ≤ m := hfirst
        omega
      exact Bool.false_ne_true
    have hone := (h 2 (by decide) (by decide)).1 hleast
    rw [racedMiner.reports_eq (by decide) (by decide)] at hone
    exact absurd hone (by decide)
  · intro h
    have hleast : reusedMiner.FirstReadable 1 := ⟨rfl, fun m hfirst hm => absurd (show 1 ≤ m from hfirst) (by omega)⟩
    have hone := (h 1 (by decide) (by decide)).1 hleast
    rw [reusedMiner.reports_eq (by decide) (by decide)] at hone
    exact absurd hone (by decide)
  · intro h
    have hleast : concealedMiner.FirstReadable 1 := ⟨rfl, fun m hfirst hm => absurd (show 1 ≤ m from hfirst) (by omega)⟩
    have hone := (h 1 (by decide) (by decide)).1 hleast
    rw [concealedMiner.reports_eq (by decide) (by decide)] at hone
    exact absurd hone (by decide)

end Mdrj.L4.ProcWatch
