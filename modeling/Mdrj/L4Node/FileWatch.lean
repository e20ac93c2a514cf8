import Mathlib
import Mdrj.Core.Runs
import Mdrj.L4Node.Collectors

/-!
# Watching critical files

At each poll a watched file is compared with what the last poll recorded of
it: its modification time and the digest of its content, which is empty for
a file that is too large or cannot be read. What was recorded is forgotten
when a poll does not find the file.

**Results.**
* `poll_reports_iff`: what a poll that returns reports.
* `change_reported`: as long as every poll finds the file, a change of what
  is recorded between two polls is reported by one of the polls between
  them.
* `change_overlooked`: a file that is away for one poll, one that is too large
  and keeps its modification time, and one dated beyond the year 9999.
-/
namespace Mdrj.L4.FileWatch
open Mdrj.Core Mdrj.L1 Mdrj.L3 Mdrj.L4.Collect

/-! ## Files -/

/-- What a poll meets under a path. The content is there if it can be read. -/
inductive FileState where
  | missing
  | denied
  | failing (e : PyError)
  | present (mtimeNs : Int) (size : Nat) (content : Option (List Nat))

abbrev FileSystem := String → FileState

/-- The components of a path, without the empty ones and `.`. -/
def components (path : String) : List String :=
  ((path.toList.splitOn '/').map String.ofList).filter fun part => decide (part ≠ "" ∧ part ≠ ".")

/-- `str(Path(raw))`. -/
def posixPath (raw : String) : String :=
  let slashes := (raw.toList.takeWhile (· = '/')).length
  let root := if slashes = 0 then "" else if slashes = 2 then "//" else "/"
  let path := root ++ "/".intercalate (components raw)
  if path = "" then "." else path

/-- mirrors mdrj/collectors/linux_audit.py:33-37 -/
structure FileWatchSnapshot where
  mtimeNs : Int
  size : Nat
  sha256 : String
  deriving DecidableEq

/-- mirrors mdrj/collectors/linux_audit.py:40-45 -/
structure AuditConfig where
  watchPaths : List String
  hashMaxBytes : Int := 1048576

section Polls
variable (host : Ingest.Host) (config : AuditConfig) (agent : Agent)

/-- mirrors mdrj/collectors/linux_audit.py:107-136 -/
def takeSnapshot : FileState → Except PyError (Option FileWatchSnapshot)
  | .missing => .ok none
  | .denied => .ok none
  | .failing e => .error e
  | .present mtimeNs size content =>
    let sha256 := if (size : Int) ≤ config.hashMaxBytes then
      (content.map fun bytes => Sha256.hex (Sha256.digest bytes)).getD "" else ""
    .ok (some ⟨mtimeNs, size, sha256⟩)

/-- `datetime.fromtimestamp(mtime_ns / 1e9).isoformat(timespec="seconds")`. -/
def mtimeIso (mtimeNs : Int) : Option String :=
  match Flt.ofInt mtimeNs with
  | some (.fin q) => host.fromTimestamp (Flt.ofRat (q / 10 ^ 9))
  | _ => none

def FileWatchSnapshot.differs (previous snapshot : FileWatchSnapshot) : Prop :=
  previous.sha256 ≠ snapshot.sha256 ∨ previous.mtimeNs ≠ snapshot.mtimeNs

instance (previous snapshot : FileWatchSnapshot) : Decidable (previous.differs snapshot) :=
  inferInstanceAs (Decidable (_ ∨ _))

def modifiedEvent (path : String) (previous snapshot : FileWatchSnapshot) (mtimeIso : String) : CollectedEvent :=
  agent.annotate {
    eventKind := "critical_file_modified"
    payload := [("category", .str "integrity"), ("path", .str path), ("previous_sha256", .str previous.sha256),
      ("current_sha256", .str snapshot.sha256), ("size_bytes", .int snapshot.size), ("mtime_iso", .str mtimeIso)] }

abbrev Snapshots := String → Option FileWatchSnapshot

/-- The loop over the watched paths. -/
def scan (firstPoll : Bool) (fs : FileSystem) :
    Snapshots → List String → Snapshots × Except PyError (List CollectedEvent)
  | snapshots, [] => (snapshots, .ok [])
  | snapshots, raw :: rest =>
    let path := posixPath raw
    match takeSnapshot config (fs path) with
    | .error e => (snapshots, .error e)
    | .ok none => scan firstPoll fs (Function.update snapshots path none) rest
    | .ok (some snapshot) =>
      let updated := Function.update snapshots path (some snapshot)
      match if firstPoll then none else snapshots path with
      | none => scan firstPoll fs updated rest
      | some previous =>
        if previous.differs snapshot then
          match mtimeIso host snapshot.mtimeNs with
          | none => (updated, .error (.valueError "year is out of range"))
          | some iso =>
            match scan firstPoll fs updated rest with
            | (snapshots, .ok events) => (snapshots, .ok (modifiedEvent agent path previous snapshot iso :: events))
            | (snapshots, .error e) => (snapshots, .error e)
        else scan firstPoll fs updated rest

/-- The collector is never disabled. -/
structure Audit where
  snapshots : Snapshots := fun _ => none
  firstPoll : Bool := true

/-- mirrors mdrj/collectors/linux_audit.py:68-105 -/
def Audit.poll (s : Audit) (fs : FileSystem) : Audit × Except PyError (List CollectedEvent) :=
  match scan host config agent s.firstPoll fs s.snapshots config.watchPaths with
  | (snapshots, .ok events) => (⟨snapshots, false⟩, .ok events)
  | (snapshots, .error e) => (⟨snapshots, s.firstPoll⟩, .error e)

/-! ## One poll -/

/-- What a poll records of a path; nothing if it does not find the file. -/
def recorded (fs : FileSystem) (path : String) : Option FileWatchSnapshot :=
  match takeSnapshot config (fs path) with
  | .ok snapshot => snapshot
  | .error _ => none

def watched : List String := config.watchPaths.map posixPath

/-- The event tells of a change of the file. -/
def Modified (path : String) (event : CollectedEvent) : Prop :=
  event.eventKind = "critical_file_modified" ∧ Dict.get event.payload "path" = some (.str path)

/-- `stat` works, finds no file or is denied, and `datetime` has the
modification time. -/
def PlainFile : FileState → Prop
  | .failing _ => False
  | .present mtimeNs _ _ => mtimeIso host mtimeNs ≠ none
  | _ => True

def Plain (fs : FileSystem) : Prop := ∀ path ∈ watched config, PlainFile host (fs path)

end Polls

section Lemmas
variable {host : Ingest.Host} {config : AuditConfig} {agent : Agent} {firstPoll : Bool} {fs : FileSystem}
  {snapshots snapshots' : Snapshots} {paths : List String} {events : List CollectedEvent}

theorem modifiedEvent_modified (path : String) (previous snapshot : FileWatchSnapshot) (iso : String) :
    Modified path (modifiedEvent agent path previous snapshot iso) :=
  ⟨rfl, Agent.annotate_get rfl⟩

theorem modifiedEvent_inj {path path' : String} {previous snapshot : FileWatchSnapshot} {iso : String}
    (h : Modified path' (modifiedEvent agent path previous snapshot iso)) : path = path' := by
  have hmodified : Modified path (modifiedEvent agent path previous snapshot iso) :=
    modifiedEvent_modified path previous snapshot iso
  have hpath := hmodified.2
  rw [h.2] at hpath
  exact (Json.str.inj (Option.some.inj hpath)).symm

/-- The poll compares the path, and finds that it differs. -/
def Differs (config : AuditConfig) (firstPoll : Bool) (fs : FileSystem) (snapshots : Snapshots) (path : String) : Prop :=
  firstPoll = false ∧ ∃ previous snapshot, snapshots path = some previous ∧
    recorded config fs path = some snapshot ∧ previous.differs snapshot

theorem takeSnapshot_plain {state : FileState} (h : PlainFile host state) :
    ∃ found, takeSnapshot config state = .ok found ∧
      ∀ snapshot, found = some snapshot → mtimeIso host snapshot.mtimeNs ≠ none := by
  cases state with
  | missing => exact ⟨none, rfl, fun _ hsome => nomatch hsome⟩
  | denied => exact ⟨none, rfl, fun _ hsome => nomatch hsome⟩
  | failing e => exact h.elim
  | present mtimeNs size content =>
    refine ⟨_, rfl, fun snapshot hsome => ?_⟩
    obtain rfl := Option.some.inj hsome
    exact h

theorem recorded_of_snapshot {path : String} {snapshot : Option FileWatchSnapshot}
    (h : takeSnapshot config (fs path) = .ok snapshot) : recorded config fs path = snapshot := by
  unfold recorded
  rw [h]

/-- After a path was looked at, it does not differ. -/
theorem not_differs_update {path : String} :
    ¬ Differs config firstPoll fs (Function.update snapshots path (recorded config fs path)) path := by
  rintro ⟨-, previous, snapshot, hprevious, hsnapshot, hdiffers⟩
  rw [Function.update_self, hsnapshot] at hprevious
  obtain rfl := Option.some.inj hprevious
  exact hdiffers.elim (· rfl) (· rfl)

theorem differs_update {path other : String} (hne : other ≠ path) :
    Differs config firstPoll fs (Function.update snapshots path (recorded config fs path)) other ↔
      Differs config firstPoll fs snapshots other := by
  unfold Differs
  rw [Function.update_of_ne hne]

/-- A pass that returns has recorded every path, and reports those that
differ from what was there before. -/
structure Scanned (config : AuditConfig) (firstPoll : Bool) (fs : FileSystem) (paths : List String)
    (snapshots snapshots' : Snapshots) (events : List CollectedEvent) : Prop where
  reads : ∀ raw ∈ paths, takeSnapshot config (fs (posixPath raw)) = .ok (recorded config fs (posixPath raw))
  after : ∀ path, snapshots' path =
    if path ∈ paths.map posixPath then recorded config fs path else snapshots path
  reports : ∀ path, (∃ event ∈ events, Modified path event) ↔
    path ∈ paths.map posixPath ∧ Differs config firstPoll fs snapshots path

/-- One more path in front: the pass over the others starts from what is
recorded of it. -/
theorem Scanned.cons {raw : String} (event : Option CollectedEvent)
    (h : Scanned config firstPoll fs paths
      (Function.update snapshots (posixPath raw) (recorded config fs (posixPath raw))) snapshots' events)
    (hread : takeSnapshot config (fs (posixPath raw)) = .ok (recorded config fs (posixPath raw)))
    (hevent : ∀ path, (∃ e ∈ event.toList, Modified path e) ↔
      path = posixPath raw ∧ Differs config firstPoll fs snapshots path) :
    Scanned config firstPoll fs (raw :: paths) snapshots snapshots' (event.toList ++ events) where
  reads := List.forall_mem_cons.2 ⟨hread, h.reads⟩
  after path := by
    rw [h.after, List.map_cons]
    by_cases hmem : path ∈ paths.map posixPath
    · rw [if_pos hmem, if_pos (List.mem_cons_of_mem _ hmem)]
    · rw [if_neg hmem]
      by_cases hpath : path = posixPath raw
      · rw [hpath, Function.update_self, if_pos List.mem_cons_self]
      · rw [Function.update_of_ne hpath, if_neg fun h => (List.mem_cons.1 h).elim hpath hmem]
  reports path := by
    have hsplit : (∃ e ∈ event.toList ++ events, Modified path e) ↔
        (∃ e ∈ event.toList, Modified path e) ∨ ∃ e ∈ events, Modified path e := by
      simp only [List.mem_append, or_and_right, exists_or]
    rw [hsplit, hevent, h.reports, List.map_cons, List.mem_cons]
    by_cases hpath : path = posixPath raw
    · -- the later entries of the same path find what the first has recorded
      subst hpath
      simp only [not_differs_update, and_false, or_false, true_and, true_or]
    · rw [differs_update hpath]
      simp only [hpath, false_and, false_or]

/-- What the loop compares a path with tells whether it differs. -/
theorem differs_iff_compared {path : String} {snapshot : FileWatchSnapshot}
    (hrecorded : recorded config fs path = some snapshot) :
    Differs config firstPoll fs snapshots path ↔
      ∃ previous, (if firstPoll then none else snapshots path) = some previous ∧ previous.differs snapshot := by
  constructor
  · rintro ⟨rfl, previous, current, hold, hcurrent, hdiffers⟩
    rw [hrecorded] at hcurrent
    obtain rfl := Option.some.inj hcurrent
    exact ⟨previous, by rw [if_neg Bool.false_ne_true, hold], hdiffers⟩
  · rintro ⟨previous, hold, hdiffers⟩
    split at hold
    · cases hold
    · next hfirst => exact ⟨by simpa using hfirst, previous, snapshot, hold, hrecorded, hdiffers⟩

/-- A path that does not differ is passed over. -/
theorem Scanned.silent {raw : String}
    (h : Scanned config firstPoll fs paths
      (Function.update snapshots (posixPath raw) (recorded config fs (posixPath raw))) snapshots' events)
    (hread : takeSnapshot config (fs (posixPath raw)) = .ok (recorded config fs (posixPath raw)))
    (hsame : ¬ Differs config firstPoll fs snapshots (posixPath raw)) :
    Scanned config firstPoll fs (raw :: paths) snapshots snapshots' events := by
  refine h.cons none hread fun path => ?_
  simp only [Option.toList_none, List.not_mem_nil, false_and, exists_false, false_iff]
  rintro ⟨rfl, hdiffers⟩
  exact hsame hdiffers

/-- A path that differs is reported. -/
theorem Scanned.report {raw : String} {previous snapshot : FileWatchSnapshot} {iso : String}
    (h : Scanned config firstPoll fs paths
      (Function.update snapshots (posixPath raw) (recorded config fs (posixPath raw))) snapshots' events)
    (hread : takeSnapshot config (fs (posixPath raw)) = .ok (recorded config fs (posixPath raw)))
    (hdiffers : Differs config firstPoll fs snapshots (posixPath raw)) :
    Scanned config firstPoll fs (raw :: paths) snapshots snapshots'
      (modifiedEvent agent (posixPath raw) previous snapshot iso :: events) := by
  refine h.cons (some (modifiedEvent agent (posixPath raw) previous snapshot iso)) hread fun path => ?_
  simp only [Option.toList_some, List.mem_singleton, exists_eq_left]
  constructor
  · intro hmodified
    obtain rfl := modifiedEvent_inj hmodified
    exact ⟨rfl, hdiffers⟩
  · rintro ⟨rfl, -⟩
    exact modifiedEvent_modified _ _ _ _

theorem scan_ok : ∀ {paths snapshots snapshots' events},
    scan host config agent firstPoll fs snapshots paths = (snapshots', .ok events) →
      Scanned config firstPoll fs paths snapshots snapshots' events
  | [], snapshots, snapshots', events, h => by
    obtain ⟨rfl, hevents⟩ := Prod.mk.inj h
    obtain rfl := Except.ok.inj hevents
    exact ⟨fun _ h => (List.not_mem_nil h).elim, fun path => by simp, fun path => by simp⟩
  | raw :: rest, snapshots, snapshots', events, h => by
    unfold scan at h
    dsimp only at h
    split at h
    · cases (Prod.mk.inj h).2
    · next hsnap =>
      have hrecorded := recorded_of_snapshot hsnap
      rw [← hrecorded] at h hsnap
      refine (scan_ok h).silent hsnap ?_
      rintro ⟨-, previous, snapshot, -, hsnapshot, -⟩
      rw [hrecorded] at hsnapshot
      cases hsnapshot
    · next snapshot hsnap =>
      have hrecorded := recorded_of_snapshot hsnap
      rw [← hrecorded] at h hsnap
      split at h
      · next hnone =>
        refine (scan_ok h).silent hsnap fun hdiffers => ?_
        obtain ⟨previous, hsome, -⟩ := (differs_iff_compared hrecorded).1 hdiffers
        rw [hnone] at hsome
        cases hsome
      · next previous hsome =>
        split at h
        · next hdiffers =>
          split at h
          · cases (Prod.mk.inj h).2
          · split at h
            · next hrest =>
              obtain ⟨rfl, hevents⟩ := Prod.mk.inj h
              obtain rfl := Except.ok.inj hevents
              exact (scan_ok hrest).report hsnap ((differs_iff_compared hrecorded).2 ⟨previous, hsome, hdiffers⟩)
            · cases (Prod.mk.inj h).2
        · next hsame =>
          refine (scan_ok h).silent hsnap fun hdiffers => ?_
          obtain ⟨previous', hsome', hdiffers'⟩ := (differs_iff_compared hrecorded).1 hdiffers
          rw [hsome] at hsome'
          obtain rfl := Option.some.inj hsome'
          exact hsame hdiffers'

/-- A poll returns if every file is plain. -/
theorem scan_returns (hplain : ∀ raw ∈ paths, PlainFile host (fs (posixPath raw))) (snapshots : Snapshots) :
    ∃ snapshots' events, scan host config agent firstPoll fs snapshots paths = (snapshots', .ok events) := by
  induction paths generalizing snapshots with
  | nil => exact ⟨snapshots, [], rfl⟩
  | cons raw rest ih =>
    obtain ⟨hraw, hrest⟩ := List.forall_mem_cons.1 hplain
    obtain ⟨found, hfound, hdate⟩ : ∃ found, takeSnapshot config (fs (posixPath raw)) = .ok found ∧
        ∀ snapshot, found = some snapshot → mtimeIso host snapshot.mtimeNs ≠ none := takeSnapshot_plain hraw
    unfold scan
    dsimp only
    rw [hfound]
    cases found with
    | none => exact ih hrest _
    | some snapshot =>
      dsimp only
      split
      · exact ih hrest _
      · next previous _ =>
        split
        · cases hiso : mtimeIso host snapshot.mtimeNs with
          | none => exact absurd hiso (hdate snapshot rfl)
          | some iso =>
            obtain ⟨snapshots', events, hscan⟩ := ih hrest (Function.update snapshots (posixPath raw) (some snapshot))
            dsimp only
            rw [hscan]
            exact ⟨_, _, rfl⟩
        · exact ih hrest _

/-- Nothing is reported of files that are as they were recorded. -/
theorem scan_settled (hsame : ∀ raw ∈ paths, takeSnapshot config (fs (posixPath raw)) =
      .ok (snapshots (posixPath raw))) :
    scan host config agent firstPoll fs snapshots paths = (snapshots, .ok []) := by
  induction paths with
  | nil => rfl
  | cons raw rest ih =>
    obtain ⟨hraw, hrest⟩ := List.forall_mem_cons.1 hsame
    unfold scan
    dsimp only
    rw [hraw]
    cases hold : snapshots (posixPath raw) with
    | none =>
      dsimp only
      rw [← hold, Function.update_eq_self]
      exact ih hrest
    | some previous =>
      dsimp only
      rw [← hold, Function.update_eq_self, hold]
      split
      · exact ih hrest
      · next previous' hsome =>
        have hprevious : previous' = previous := by
          split at hsome
          · cases hsome
          · exact (Option.some.inj hsome).symm
        rw [if_neg]
        · exact ih hrest
        · rw [hprevious]
          exact fun h => h.elim (· rfl) (· rfl)

end Lemmas

section Polls
variable {host : Ingest.Host} {config : AuditConfig} {agent : Agent} {s s' : Audit} {fs : FileSystem}
  {events : List CollectedEvent} {path : String}

/-- **One poll.** A poll that returns reports a watched path if and only if an
earlier poll returned, the file was recorded when it was last looked at, and
its modification time or digest differs from that. -/
theorem poll_reports_iff (h : s.poll host config agent fs = (s', .ok events)) :
    (∃ event ∈ events, Modified path event) ↔
      path ∈ watched config ∧ Differs config s.firstPoll fs s.snapshots path := by
  unfold Audit.poll at h
  split at h
  · next hscan =>
    obtain ⟨-, hevents⟩ := Prod.mk.inj h
    obtain rfl := Except.ok.inj hevents
    exact (scan_ok hscan).reports path
  · cases (Prod.mk.inj h).2

/-- After a poll that returns, what is recorded of a watched path is what the
poll met. -/
theorem poll_records (h : s.poll host config agent fs = (s', .ok events)) :
    s'.firstPoll = false ∧ ∀ path ∈ watched config, s'.snapshots path = recorded config fs path := by
  unfold Audit.poll at h
  split at h
  · next hscan =>
    obtain ⟨rfl, -⟩ := Prod.mk.inj h
    refine ⟨rfl, fun path hpath => ?_⟩
    exact ((scan_ok hscan).after path).trans (if_pos hpath)
  · cases (Prod.mk.inj h).2

theorem poll_returns (hplain : Plain host config fs) (s : Audit) :
    ∃ s' events, s.poll host config agent fs = (s', .ok events) := by
  obtain ⟨snapshots', events, hscan⟩ : ∃ snapshots' events,
      scan host config agent s.firstPoll fs s.snapshots config.watchPaths = (snapshots', .ok events) :=
    scan_returns (fun raw hraw => hplain _ (List.mem_map_of_mem hraw)) s.snapshots
  unfold Audit.poll
  rw [hscan]
  exact ⟨_, _, rfl⟩

/-- The same files again: nothing is reported. -/
theorem poll_settles (h : s.poll host config agent fs = (s', .ok events)) :
    s'.poll host config agent fs = (s', .ok []) := by
  obtain ⟨hfirst, hrecorded⟩ := poll_records h
  have hsettled : scan host config agent s'.firstPoll fs s'.snapshots config.watchPaths = (s'.snapshots, .ok []) := by
    refine scan_settled fun raw hraw => ?_
    rw [hrecorded _ (List.mem_map_of_mem hraw)]
    unfold Audit.poll at h
    split at h
    · next hscan => exact (scan_ok hscan).reads raw hraw
    · cases (Prod.mk.inj h).2
  unfold Audit.poll
  rw [hsettled, ← hfirst]

end Polls

/-- The watch as a collector. -/
def auditCollector (host : Ingest.Host) (config : AuditConfig) (agent : Agent) : Collector Audit FileSystem where
  poll := Audit.poll host config agent
  settles h := ⟨_, poll_settles h⟩

/-! ## A sequence of polls -/

section Sequences
variable (host : Ingest.Host) (config : AuditConfig) (agent : Agent) (polls : Nat → FileSystem)

/-- The collector before a poll. -/
def Audit.before : Nat → Audit
  | 0 => {}
  | k + 1 => ((Audit.before k).poll host config agent (polls k)).1

/-- What a poll returns. -/
def Audit.returned (k : Nat) : Except PyError (List CollectedEvent) :=
  ((Audit.before host config agent polls k).poll host config agent (polls k)).2

/-- A poll reports a change of the file. -/
def ReportedBy (path : String) (k : Nat) : Prop :=
  ∃ events, Audit.returned host config agent polls k = .ok events ∧ ∃ event ∈ events, Modified path event

end Sequences

section Sequences
variable {host : Ingest.Host} {config : AuditConfig} {agent : Agent} {polls : Nat → FileSystem} {path : String}

/-- Two polls in a row that return: the second reports what differs from what
the first has met. -/
theorem reported_next {k : Nat} (hpath : path ∈ watched config) (hplain : Plain host config (polls k))
    (hplain' : Plain host config (polls (k + 1))) {previous snapshot : FileWatchSnapshot}
    (hprevious : recorded config (polls k) path = some previous)
    (hsnapshot : recorded config (polls (k + 1)) path = some snapshot) (hdiffers : previous.differs snapshot) :
    ReportedBy host config agent polls path (k + 1) := by
  obtain ⟨s, events, hpoll⟩ : ∃ s events, (Audit.before host config agent polls k).poll host config agent (polls k) =
      (s, .ok events) := poll_returns hplain _
  obtain ⟨s', events', hpoll'⟩ : ∃ s' events, s.poll host config agent (polls (k + 1)) = (s', .ok events) :=
    poll_returns hplain' s
  have hbefore : Audit.before host config agent polls (k + 1) = s := by
    unfold Audit.before
    rw [hpoll]
  obtain ⟨hfirst, hrecorded⟩ := poll_records hpoll
  refine ⟨events', ?_, (poll_reports_iff hpoll').2 ⟨hpath, hfirst, previous, snapshot, ?_, hsnapshot, hdiffers⟩⟩
  · unfold Audit.returned
    rw [hbefore, hpoll']
  · rw [hrecorded path hpath, hprevious]

/-- What changes between two times changes from one time to the next. -/
theorem exists_change {β : Type} {f : Nat → β} {i j : Nat} (hij : i ≤ j) (hne : f i ≠ f j) :
    ∃ k, i ≤ k ∧ k < j ∧ f k ≠ f (k + 1) := by
  by_contra hno
  have hall : ∀ k, i ≤ k → k < j → f k = f (k + 1) := by
    intro k hik hkj
    by_contra hk
    exact hno ⟨k, hik, hkj, hk⟩
  have hconst : ∀ k, i ≤ k → k ≤ j → f i = f k := by
    intro k hik
    induction k, hik using Nat.le_induction with
    | base => exact fun _ => rfl
    | succ k hik ih => exact fun hkj => (ih (by omega)).trans (hall k hik hkj)
  exact hne (hconst j hij le_rfl)

/-- **Changes of a watched file.** If from poll `i` to poll `j` the file is
always found, and its modification time or recorded digest differs between
these two, then a poll after `i` and up to `j` reports it. -/
theorem change_reported {i j : Nat} (hij : i < j) (hpath : path ∈ watched config)
    (hplain : ∀ k, i ≤ k → k ≤ j → Plain host config (polls k))
    (hfound : ∀ k, i ≤ k → k ≤ j → recorded config (polls k) path ≠ none)
    {first last : FileWatchSnapshot} (hfirst : recorded config (polls i) path = some first)
    (hlast : recorded config (polls j) path = some last) (hdiffers : first.differs last) :
    ∃ k, i < k ∧ k ≤ j ∧ ReportedBy host config agent polls path k := by
  let mark : Nat → Option (String × Int) := fun k =>
    (recorded config (polls k) path).map fun snapshot => (snapshot.sha256, snapshot.mtimeNs)
  have hmarks : mark i ≠ mark j := by
    intro heq
    simp only [mark, hfirst, hlast, Option.map_some, Option.some.injEq, Prod.mk.injEq] at heq
    exact hdiffers.elim (· heq.1) (· heq.2)
  obtain ⟨k, hik, hkj, hchange⟩ := exists_change hij.le hmarks
  obtain ⟨previous, hprevious⟩ := Option.ne_none_iff_exists'.1 (hfound k hik hkj.le)
  obtain ⟨snapshot, hsnapshot⟩ := Option.ne_none_iff_exists'.1 (hfound (k + 1) (by omega) hkj)
  have hdiff : previous.differs snapshot := by
    by_contra hsame
    obtain ⟨hsha, hmtime⟩ := not_or.1 hsame
    apply hchange
    simp only [mark, hprevious, hsnapshot, Option.map_some, not_not.1 hsha, not_not.1 hmtime]
  exact ⟨k + 1, by omega, hkj, reported_next hpath (hplain k hik hkj.le) (hplain (k + 1) (by omega) hkj)
    hprevious hsnapshot hdiff⟩

end Sequences

/-! ## Changes that are overlooked -/

/-- A host whose clock shows the first second of 1970. -/
def epochHost : Ingest.Host where
  digit _ := none
  wordChar _ := false
  getpwnam _ := none
  getgrnam _ := none
  fromIsoFormat _ := none
  fromTimestamp t := if Flt.lt t (.fin 0) = false ∧ Flt.lt t (.fin 1) then some "1970-01-01T00:00:00" else none
  utcFromTimestamp _ := none

def passwd : AuditConfig := { watchPaths := ["/etc/passwd"] }

def agent : Agent := ⟨"n", "n"⟩

/-- The file is written between the first two polls. -/
def written : Nat → FileSystem
  | 0 => fun _ => .present 100 1 (some [1])
  | _ => fun _ => .present 200 1 (some [2])

/-- The first poll after it reports the change. -/
theorem change_reported_written :
    ∃ k, 0 < k ∧ k ≤ 1 ∧ ReportedBy epochHost passwd agent written "/etc/passwd" k := by
  have hplain : ∀ k, 0 ≤ k → k ≤ 1 → Plain epochHost passwd (written k) := by
    have hdates : mtimeIso epochHost 100 ≠ none ∧ mtimeIso epochHost 200 ≠ none := by decide +kernel
    intro k _ hk path _
    interval_cases k
    · exact hdates.1
    · exact hdates.2
  have hfound : ∀ k, 0 ≤ k → k ≤ 1 → recorded passwd (written k) "/etc/passwd" ≠ none := by
    intro k _ hk
    interval_cases k
    · exact fun h => nomatch h
    · exact fun h => nomatch h
  exact change_reported (by decide) (by decide +kernel) hplain hfound rfl rfl (.inr (by decide))

/-- The file is away at the second poll, and another one is there at the
third. -/
def replaced : Nat → FileSystem
  | 0 => fun _ => .present 100 1 (some [1])
  | 1 => fun _ => .missing
  | _ => fun _ => .present 200 1 (some [2])

/-- A file above the limit is overwritten and gets its old modification time
back. -/
def overwritten : Nat → FileSystem
  | 0 => fun _ => .present 100 4 (some [1, 2, 3, 4])
  | _ => fun _ => .present 100 4 (some [1, 2, 3, 5])

/-- The file is dated to the year 10000. -/
def postdated : Nat → FileSystem
  | 0 => fun _ => .present 100 1 (some [1])
  | _ => fun _ => .present (253402300800 * 10 ^ 9) 1 (some [2])

/-- The content is another one at the last poll than at the first, and
nothing is reported. -/
theorem change_overlooked :
    (¬ ∃ k, 0 < k ∧ k ≤ 2 ∧ ReportedBy epochHost passwd agent replaced "/etc/passwd" k) ∧
      (¬ ∃ k, 0 < k ∧ k ≤ 1 ∧
        ReportedBy epochHost { passwd with hashMaxBytes := 3 } agent overwritten "/etc/passwd" k) ∧
      ¬ ∃ k, 0 < k ∧ k ≤ 2 ∧ ReportedBy epochHost passwd agent postdated "/etc/passwd" k := by
  have hnothing : ∀ {config polls path k}, Audit.returned epochHost config agent polls k = .ok [] →
      ¬ ReportedBy epochHost config agent polls path k := by
    rintro config polls path k hreturned ⟨events, hevents, event, hevent, -⟩
    rw [hreturned] at hevents
    obtain rfl := Except.ok.inj hevents
    exact List.not_mem_nil hevent
  refine ⟨?_, ?_, ?_⟩
  · rintro ⟨k, hpos, hle, hreported⟩
    interval_cases k
    · exact hnothing rfl hreported
    · exact hnothing rfl hreported
  · rintro ⟨k, hpos, hle, hreported⟩
    interval_cases k
    exact hnothing rfl hreported
  · rintro ⟨k, hpos, hle, hreported⟩
    interval_cases k
    · obtain ⟨events, hevents, -⟩ := hreported
      have hraises : (Audit.returned epochHost passwd agent postdated 1).toOption.isNone = true := by decide +kernel
      rw [hevents] at hraises
      cases hraises
    · obtain ⟨events, hevents, event, hevent, -⟩ := hreported
      have hempty : (Audit.returned epochHost passwd agent postdated 2).toOption.map List.length = some 0 := by
        decide +kernel
      rw [hevents] at hempty
      rw [List.length_eq_zero_iff.1 (Option.some.inj hempty)] at hevent
      exact List.not_mem_nil hevent

end Mdrj.L4.FileWatch
