import Mdrj.Core.Dict
import Mdrj.Core.Windows
import Mdrj.L1Encoding.Event

/-!
# The hourly status snapshot

Once per interval a node emits an event with what happened in the window
since the last such event: for each collector the events it found, for each
class the events the node emitted. The payload is built before the emission
is awaited, and the broadcast may take seconds in which collectors go on
polling. The two baselines are moved afterwards, that of the classes to the
copy the payload was built from, that of the collectors to counters read
again. What a collector finds during the await is in no window
(`events_found_in_the_await_lost`).

Main result: `hourly_windows_iff`. The windows of the snapshots sent add up
exactly when no collector found events during the await of a snapshot that
was sent and that another one followed. The classes always add up.

A poll runs as one step here, and what it leaves in the status of its
collector is an argument. Left out of the payload: the figures of the host,
the checkpoint, the peers and the policy, which no counter depends on.
-/
namespace Mdrj.L4
open Mdrj.Core Mdrj.L1

/-- mirrors mdrj/collectors/base.py:25-34 -/
structure CollectorStatus where
  name : String
  enabled : Bool
  lastPollAt : Option Flt := none
  lastEventAt : Option Flt := none
  lastError : Option String := none
  emittedCount : ℕ := 0
  droppedCount : ℕ := 0
  lastDropReason : Option String := none

/-- What a poll leaves in the status of its collector. A collector that is
not enabled finds no events. -/
structure PollReport where
  pollAt : Flt
  lastError : Option String
  eventAt : Flt
  events : ℕ

/-- The end of every `poll`.
mirrors mdrj/collectors/linux_journald.py:58, 70-77 -/
def CollectorStatus.polled (status : CollectorStatus) (report : PollReport) : CollectorStatus :=
  let status := { status with lastPollAt := some report.pollAt, lastError := report.lastError }
  if report.events = 0 then status
  else { status with
    lastEventAt := some report.eventAt
    emittedCount := status.emittedCount + report.events }

/-- mirrors mdrj/collectors/base.py:48-50 -/
def CollectorStatus.recordDrop (status : CollectorStatus) (reason : String) : CollectorStatus :=
  { status with droppedCount := status.droppedCount + 1, lastDropReason := some reason }

/-- Which collectors the configuration turns on. -/
structure CollectorsConfig where
  journald : Bool
  audit : Bool
  firewall : Bool
  proc : Bool
  hostLifecycle : Bool

/-- `fault name` is why a collector cannot run on this host.
mirrors mdrj/node.py:1138-1153 -/
def buildCollectors (cfg : CollectorsConfig) (fault : String → Option String) : List CollectorStatus :=
  ((if cfg.journald then ["linux_journald"] else []) ++
    (if cfg.audit then ["linux_audit"] else []) ++
    (if cfg.firewall then ["linux_firewall"] else []) ++
    (if cfg.proc then ["linux_proc"] else []) ++
    (if cfg.hostLifecycle then ["host_lifecycle"] else [])).map fun name =>
      { name := name, enabled := (fault name).isNone, lastError := fault name }

/-- mirrors mdrj/node.py:1371-1384 -/
structure CollectorReport where
  name : String
  enabled : Bool
  emittedInWindow : ℕ
  emittedTotal : ℕ
  droppedTotal : ℕ
  lastPollAt : Option Flt
  lastEventAt : Option Flt
  lastError : Option String

/-- The payload. -/
structure HourlyStatus where
  windowSec : Flt
  processUptimeSec : Flt
  collectors : List CollectorReport
  eventsInWindow : Dict EventClass ℕ

/-- The part of a node that the snapshots read and write. -/
structure HourlyNode where
  collectors : List CollectorStatus
  eventsByClassKind : Dict (EventClass × String) ℕ
  processStartTs : Flt
  hourlyWindowStartTs : Flt
  collectorEmittedAtWindowStart : Dict String ℕ
  eventsByClassAtWindowStart : Dict EventClass ℕ
  hourlyStatusEmitted : ℕ

/-- A step of another task of the node: a poll, an event of a collector
dropped by the policy, the counting of an event just emitted. -/
inductive Work where
  | poll (name : String) (report : PollReport)
  | drop (name : String) (reason : String)
  | emit (cls : EventClass) (kind : String)

/-- What a node does: a step of another task, or a snapshot. `during` is what
happens between its payload and the return of `emit_event`, the counting of
its own event included; `ok` says that `emit_event` did not raise. -/
inductive HourlyOp where
  | work (w : Work)
  | snapshot (now : Flt) (during : List Work) (ok : Bool)

/-- `{c.status.name: int(c.status.emitted_count) for c in self._collectors}`. -/
def emittedCounts (collectors : List CollectorStatus) : Dict String ℕ :=
  collectors.foldl (fun out c => Dict.set out c.name c.emittedCount) []

/-- mirrors mdrj/node.py:1343-1347 -/
def snapshotEventsByClass (eventsByClassKind : Dict (EventClass × String) ℕ) : Dict EventClass ℕ :=
  eventsByClassKind.foldl (fun out p => Dict.set out p.1.1 ((Dict.get out p.1.1).getD 0 + p.2))
    [(.A, 0), (.B, 0), (.C, 0)]

/-- mirrors mdrj/node.py:864-869 -/
def incrementEventCounters (eventsByClassKind : Dict (EventClass × String) ℕ) (cls : EventClass)
    (kind : String) : Dict (EventClass × String) ℕ :=
  let key := (cls, if kind = "" then "_unspecified" else kind)
  Dict.set eventsByClassKind key ((Dict.get eventsByClassKind key).getD 0 + 1)

namespace HourlyNode

/-- A node whose collectors were just built. -/
def booted (cfg : CollectorsConfig) (fault : String → Option String) (now : Flt) : HourlyNode :=
  ⟨buildCollectors cfg fault, [], now, now, [], [], 0⟩

def updateCollector (s : HourlyNode) (name : String) (f : CollectorStatus → CollectorStatus) : HourlyNode :=
  { s with collectors := s.collectors.map fun c => if c.name = name then f c else c }

def work (s : HourlyNode) : Work → HourlyNode
  | .poll name report => s.updateCollector name (·.polled report)
  | .drop name reason => s.updateCollector name (·.recordDrop reason)
  | .emit cls kind => { s with eventsByClassKind := incrementEventCounters s.eventsByClassKind cls kind }

def works (s : HourlyNode) (ws : List Work) : HourlyNode := ws.foldl work s

/-- mirrors mdrj/node.py:1330-1340 -/
def startHourlyStatus (s : HourlyNode) (now now' : Flt) : HourlyNode :=
  { s with
    processStartTs := now
    hourlyWindowStartTs := now'
    collectorEmittedAtWindowStart := emittedCounts s.collectors
    eventsByClassAtWindowStart := snapshotEventsByClass s.eventsByClassKind }

/-- One entry of `collectors`; `max(0, ..)` is the subtraction of naturals. -/
def collectorReport (s : HourlyNode) (c : CollectorStatus) : CollectorReport :=
  let prev := (Dict.get s.collectorEmittedAtWindowStart c.name).getD 0
  ⟨c.name, c.enabled, c.emittedCount - prev, c.emittedCount, c.droppedCount, c.lastPollAt,
    c.lastEventAt, c.lastError⟩

/-- The payload a snapshot sends.
mirrors mdrj/node.py:1366-1413 -/
def buildHourlyStatus (s : HourlyNode) (now : Flt) : HourlyStatus :=
  let curByClass := snapshotEventsByClass s.eventsByClassKind
  { windowSec := now.sub s.hourlyWindowStartTs
    processUptimeSec := now.sub s.processStartTs
    collectors := s.collectors.map s.collectorReport
    eventsInWindow := [EventClass.A, .B, .C].map fun cls =>
      (cls, (Dict.get curByClass cls).getD 0 - (Dict.get s.eventsByClassAtWindowStart cls).getD 0) }

/-- The node afterwards, and the payload if it was sent.
mirrors mdrj/node.py:1364-1425 -/
def emitHourlyStatus (s : HourlyNode) (now : Flt) (during : List Work) (ok : Bool) :
    HourlyNode × Option HourlyStatus :=
  let curByClass := snapshotEventsByClass s.eventsByClassKind
  let payload := s.buildHourlyStatus now
  let s := s.works during
  if ok then
    ({ s with
      hourlyStatusEmitted := s.hourlyStatusEmitted + 1
      hourlyWindowStartTs := now
      collectorEmittedAtWindowStart := emittedCounts s.collectors
      eventsByClassAtWindowStart := curByClass }, some payload)
  else (s, none)

end HourlyNode

/-! ## What the snapshots report -/

/-- A snapshot that was sent: its payload, the node it was built from, and
what happened while it was awaited. -/
structure Sent where
  payload : HourlyStatus
  built : HourlyNode
  during : List Work

/-- The snapshots sent in a run. -/
def HourlyNode.sent : HourlyNode → List HourlyOp → List Sent
  | _, [] => []
  | s, .work w :: ops => (s.work w).sent ops
  | s, .snapshot now during ok :: ops =>
    let r := s.emitHourlyStatus now during ok
    (r.2.map fun payload => ⟨payload, s, during⟩).toList ++ r.1.sent ops

/-- `emitted_in_window` of a collector. -/
def HourlyStatus.emittedInWindow (payload : HourlyStatus) (name : String) : ℕ :=
  ((payload.collectors.find? (·.name = name)).map (·.emittedInWindow)).getD 0

/-- `events_in_window` of a class. -/
def HourlyStatus.eventsOf (payload : HourlyStatus) (cls : EventClass) : ℕ :=
  (Dict.get payload.eventsInWindow cls).getD 0

def HourlyNode.names (s : HourlyNode) : List String := s.collectors.map (·.name)

/-- `emitted_count` of a collector. -/
def HourlyNode.emittedCount (s : HourlyNode) (name : String) : ℕ :=
  ((s.collectors.find? (·.name = name)).map (·.emittedCount)).getD 0

/-- The events of a class the node has counted. -/
def HourlyNode.eventCount (s : HourlyNode) (cls : EventClass) : ℕ :=
  (Dict.get (snapshotEventsByClass s.eventsByClassKind) cls).getD 0

/-- The node when the last payload that was sent was built. -/
def lastBuilt (start : HourlyNode) (sent : List Sent) : HourlyNode :=
  (sent.getLast?.map (·.built)).getD start

/-- The windows add up: what they report for a collector, and for a class, is
the increase from the start to the last payload. -/
structure Telescopes (start : HourlyNode) (sent : List Sent) : Prop where
  collectors : ∀ name ∈ start.names,
    start.emittedCount name + (sent.map (·.payload.emittedInWindow name)).sum =
      (lastBuilt start sent).emittedCount name
  classes : ∀ cls, start.eventCount cls + (sent.map (·.payload.eventsOf cls)).sum =
    (lastBuilt start sent).eventCount cls

/-- The events a collector finds in one step. -/
def Work.found (name : String) : Work → ℕ
  | .poll name' report => if name' = name then report.events else 0
  | _ => 0

def eventsFound (name : String) (ws : List Work) : ℕ := (ws.map (Work.found name)).sum

/-- The awaits of the snapshots that were sent. -/
def awaits : List HourlyOp → List (List Work)
  | [] => []
  | .snapshot _ during true :: ops => during :: awaits ops
  | _ :: ops => awaits ops

/-! ## Counters -/

section Counters
variable {s : HourlyNode} {name : String} {cls : EventClass}

theorem names_updateCollector (name : String) {f : CollectorStatus → CollectorStatus}
    (hf : ∀ c, (f c).name = c.name) : (s.updateCollector name f).names = s.names := by
  unfold HourlyNode.names HourlyNode.updateCollector
  rw [List.map_map]
  refine List.map_congr_left fun c _ => ?_
  by_cases hc : c.name = name
  · simp [hc, hf]
  · simp [hc]

theorem polled_name (c : CollectorStatus) (report : PollReport) : (c.polled report).name = c.name := by
  unfold CollectorStatus.polled
  dsimp only
  split <;> rfl

theorem polled_emittedCount (c : CollectorStatus) (report : PollReport) :
    (c.polled report).emittedCount = c.emittedCount + report.events := by
  unfold CollectorStatus.polled
  dsimp only
  split
  · rename_i h; rw [h]; rfl
  · rfl

/-- An update of one collector, in the counter of any. -/
theorem emittedCount_updateCollector (name' : String) {f : CollectorStatus → CollectorStatus} {n : ℕ}
    (hf : ∀ c, (f c).name = c.name) (hn : ∀ c, (f c).emittedCount = c.emittedCount + n)
    (hname : name ∈ s.names) :
    (s.updateCollector name' f).emittedCount name = s.emittedCount name + if name' = name then n else 0 := by
  unfold HourlyNode.emittedCount HourlyNode.updateCollector
  dsimp only
  rw [List.find?_map]
  have hsame : ((fun c : CollectorStatus => decide (c.name = name)) ∘
      fun c => if c.name = name' then f c else c) = fun c => decide (c.name = name) := by
    funext c
    by_cases hc : c.name = name'
    · simp [hc, hf]
    · simp [hc]
  rw [hsame]
  obtain ⟨c₀, hc₀, hname₀⟩ := List.mem_map.1 hname
  cases hfind : s.collectors.find? (·.name = name) with
  | none => exact absurd hname₀ (by simpa using List.find?_eq_none.1 hfind c₀ hc₀)
  | some c =>
    have hc : c.name = name := by simpa using List.find?_some hfind
    by_cases he : name' = name
    · simp [hc, he, hn]
    · have he' : c.name ≠ name' := hc ▸ Ne.symm he
      simp [he, he']

theorem names_work (w : Work) : (s.work w).names = s.names := by
  cases w with
  | poll name report => exact names_updateCollector name (polled_name · report)
  | drop name reason => exact names_updateCollector name fun _ => rfl
  | emit cls kind => rfl

theorem emittedCount_work (hname : name ∈ s.names) (w : Work) :
    (s.work w).emittedCount name = s.emittedCount name + w.found name := by
  cases w with
  | poll name' report =>
    exact emittedCount_updateCollector name' (polled_name · report) (polled_emittedCount · report) hname
  | drop name' reason =>
    have h := emittedCount_updateCollector name' (f := (·.recordDrop reason)) (n := 0) (fun _ => rfl)
      (fun _ => rfl) hname
    rw [ite_self] at h
    exact h
  | emit cls kind => rfl

theorem names_works (ws : List Work) : (s.works ws).names = s.names := by
  induction ws generalizing s with
  | nil => rfl
  | cons w ws ih => exact ih.trans (names_work w)

theorem emittedCount_works (hname : name ∈ s.names) (ws : List Work) :
    (s.works ws).emittedCount name = s.emittedCount name + eventsFound name ws := by
  induction ws generalizing s with
  | nil => rfl
  | cons w ws ih =>
    have hrest := ih (s := s.work w) (by rwa [names_work])
    rw [emittedCount_work hname] at hrest
    rw [eventsFound, List.map_cons, List.sum_cons, ← Nat.add_assoc]
    exact hrest

/-- Counters of distinct collectors, by name. -/
theorem get_emittedCounts {collectors : List CollectorStatus} (h : (collectors.map (·.name)).Nodup) :
    Dict.get (emittedCounts collectors) name =
      (collectors.find? (·.name = name)).map (·.emittedCount) := by
  induction collectors using List.reverseRecOn with
  | nil => rfl
  | append_singleton collectors c ih =>
    rw [List.map_append, List.nodup_append] at h
    rw [emittedCounts, List.foldl_concat, Dict.get_set, ← emittedCounts, ih h.1, List.find?_append]
    by_cases hc : c.name = name
    · have hnone : collectors.find? (·.name = name) = none := by
        rw [List.find?_eq_none]
        intro c' hc' he
        exact h.2.2 c'.name (List.mem_map_of_mem hc') c.name (by simp) (by simp_all)
      simp [hc, hnone]
    · simp [hc]

end Counters

/-! ## Events by class -/

/-- The events counted for a class, over its kinds. -/
def classTotal (cls : EventClass) (eventsByClassKind : Dict (EventClass × String) ℕ) : ℕ :=
  ((eventsByClassKind.filter (·.1.1 = cls)).map Prod.snd).sum

theorem classTotal_cons (cls : EventClass) (p : (EventClass × String) × ℕ)
    (d : Dict (EventClass × String) ℕ) :
    classTotal cls (p :: d) = (if p.1.1 = cls then p.2 else 0) + classTotal cls d := by
  unfold classTotal
  by_cases h : p.1.1 = cls
  · simp [h]
  · simp [h]

theorem get_snapshotEventsByClass (cls : EventClass) (d : Dict (EventClass × String) ℕ) :
    Dict.get (snapshotEventsByClass d) cls = some (classTotal cls d) := by
  -- the loop, from any totals so far
  have hloop : ∀ (out : Dict EventClass ℕ) (n : ℕ), Dict.get out cls = some n →
      Dict.get (d.foldl (fun out p => Dict.set out p.1.1 ((Dict.get out p.1.1).getD 0 + p.2)) out) cls =
        some (n + classTotal cls d) := by
    induction d with
    | nil => intro out n h; exact h
    | cons p d ih =>
      intro out n h
      rw [List.foldl_cons, classTotal_cons, ← Nat.add_assoc]
      refine ih _ _ ?_
      rw [Dict.get_set]
      by_cases hp : p.1.1 = cls
      · rw [if_pos hp, if_pos hp, hp, h, Option.getD_some]
      · rw [if_neg hp, if_neg hp, h, Nat.add_zero]
  have hzero : Dict.get [(EventClass.A, 0), (.B, 0), (.C, 0)] cls = some 0 := by cases cls <;> rfl
  rw [snapshotEventsByClass, hloop _ 0 hzero, Nat.zero_add]

theorem classTotal_set (cls : EventClass) (d : Dict (EventClass × String) ℕ) (key : EventClass × String) :
    classTotal cls (Dict.set d key ((Dict.get d key).getD 0 + 1)) =
      classTotal cls d + if key.1 = cls then 1 else 0 := by
  induction d with
  | nil =>
    rw [Dict.set, classTotal_cons]
    exact Nat.add_comm ..
  | cons p d ih =>
    obtain ⟨key', n⟩ := p
    by_cases hk : key' = key
    · subst hk
      by_cases hc : key'.1 = cls
      · simp [Dict.set, Dict.get_cons, classTotal_cons, hc]; omega
      · simp [Dict.set, Dict.get_cons, classTotal_cons, hc]
    · simp only [Dict.set, Dict.get_cons, hk, if_false, classTotal_cons, ih, Nat.add_assoc]

section Classes
variable {s : HourlyNode} {cls : EventClass}

theorem eventCount_eq : s.eventCount cls = classTotal cls s.eventsByClassKind := by
  rw [HourlyNode.eventCount, get_snapshotEventsByClass, Option.getD_some]

/-- No step lowers a counter. -/
theorem eventCount_work (w : Work) : s.eventCount cls ≤ (s.work w).eventCount cls := by
  rw [eventCount_eq, eventCount_eq]
  cases w with
  | poll name report => exact Nat.le_refl _
  | drop name reason => exact Nat.le_refl _
  | emit cls' kind =>
    unfold HourlyNode.work incrementEventCounters
    dsimp only
    rw [classTotal_set]
    exact Nat.le_add_right ..

theorem eventCount_works (ws : List Work) : s.eventCount cls ≤ (s.works ws).eventCount cls := by
  induction ws generalizing s with
  | nil => exact Nat.le_refl _
  | cons w ws ih => exact (eventCount_work w).trans ih

end Classes

/-! ## The windows add up -/

/-- A counter with its baseline, what a payload reports of it, and how far
the baseline gets ahead of the payload during an await. -/
structure Meter where
  reading : HourlyNode → ℕ
  base : HourlyNode → ℕ
  delta : HourlyStatus → ℕ
  lag : List Work → ℕ

/-- How a counter goes with the snapshots, on nodes with the collectors
`ns`. -/
structure Meter.Sound (m : Meter) (ns : List String) : Prop where
  delta_build : ∀ s now, m.delta (s.buildHourlyStatus now) = m.reading s - m.base s
  base_work : ∀ s w, m.base (s.work w) = m.base s
  reading_works : ∀ s ws, s.names = ns → m.reading s + m.lag ws ≤ m.reading (s.works ws)
  sent : ∀ s now during, s.names = ns →
    m.reading (s.emitHourlyStatus now during true).1 = m.reading (s.works during) ∧
      m.base (s.emitHourlyStatus now during true).1 = m.reading s + m.lag during

section Meters
variable {m : Meter} {ns : List String} {s : HourlyNode}

/-- The windows of a counter, from the snapshots sent. -/
def Meter.marks (m : Meter) (sent : List Sent) : List Mark :=
  sent.map fun w => ⟨m.reading w.built, m.reading w.built + m.lag w.during⟩

theorem names_emitHourlyStatus (now : Flt) (during : List Work) (ok : Bool) :
    (s.emitHourlyStatus now during ok).1.names = s.names := by
  cases ok <;> exact names_works during

theorem Meter.Sound.base_works (h : m.Sound ns) (ws : List Work) : m.base (s.works ws) = m.base s := by
  induction ws generalizing s with
  | nil => rfl
  | cons w ws ih => exact ih.trans (h.base_work s w)

/-- The reports of a run are the windows of the counter. -/
theorem Meter.Sound.counted (h : m.Sound ns) (ops : List HourlyOp) (hs : s.names = ns)
    (hbase : m.base s ≤ m.reading s) :
    (s.sent ops).map (fun w => m.delta w.payload) = Mark.counted (m.base s) (m.marks (s.sent ops)) ∧
      Mark.Rising (m.base s) (m.marks (s.sent ops)) := by
  induction ops generalizing s with
  | nil => exact ⟨rfl, trivial⟩
  | cons op ops ih =>
    cases op with
    | work w =>
      have hread := h.reading_works s [w] hs
      have hw := ih (s := s.work w) ((names_work w).trans hs)
        ((h.base_work s w).trans_le (hbase.trans ((Nat.le_add_right ..).trans hread)))
      rwa [h.base_work s w] at hw
    | snapshot now during ok =>
      have hread := h.reading_works s during hs
      cases ok with
      | false =>
        -- the window goes on
        have hw := ih (s := s.works during) ((names_works during).trans hs)
          ((h.base_works during).trans_le (hbase.trans ((Nat.le_add_right ..).trans hread)))
        rwa [h.base_works during] at hw
      | true =>
        obtain ⟨hreading, hnext⟩ := h.sent s now during hs
        have hw := ih (s := (s.emitHourlyStatus now during true).1)
          ((names_emitHourlyStatus now during true).trans hs)
          (by rw [hreading, hnext]; exact hread)
        rw [hnext] at hw
        refine ⟨?_, hbase, Nat.le_add_right .., hw.2⟩
        exact congrArg₂ List.cons (h.delta_build s now) hw.1

theorem awaits_eq (ops : List HourlyOp) : (s.sent ops).map (·.during) = awaits ops := by
  induction ops generalizing s with
  | nil => rfl
  | cons op ops ih =>
    cases op with
    | work w => exact ih
    | snapshot now during ok =>
      cases ok with
      | false => exact ih
      | true => exact congrArg (during :: ·) ih

/-- A counter adds up exactly when no await but the last got ahead. -/
theorem Meter.Sound.telescopes_iff (h : m.Sound ns) (ops : List HourlyOp) (hs : s.names = ns)
    (hbase : m.base s = m.reading s) :
    m.reading s + ((s.sent ops).map fun w => m.delta w.payload).sum =
      m.reading (lastBuilt s (s.sent ops)) ↔ ∀ during ∈ (awaits ops).dropLast, m.lag during = 0 := by
  obtain ⟨hcounted, hrising⟩ := h.counted ops hs hbase.le
  have hlast : Mark.lastReading (m.base s) (m.marks (s.sent ops)) = m.reading (lastBuilt s (s.sent ops)) := by
    rw [hbase, Mark.lastReading, Meter.marks, List.getLast?_map, lastBuilt]
    cases (s.sent ops).getLast? <;> rfl
  have hiff := Mark.sum_counted_iff hrising
  rw [hlast, ← hcounted, hbase] at hiff
  rw [hiff, ← awaits_eq (s := s), ← List.map_dropLast, Meter.marks, ← List.map_dropLast,
    List.forall_mem_map, List.forall_mem_map]
  simp only [Nat.add_sub_cancel_left]

end Meters

/-- The counter of a collector; its baseline is read after the await. -/
def collectorMeter (name : String) : Meter where
  reading := (·.emittedCount name)
  base := fun s => (Dict.get s.collectorEmittedAtWindowStart name).getD 0
  delta := (·.emittedInWindow name)
  lag := eventsFound name

/-- The counter of a class; its baseline is the copy made for the payload. -/
def classMeter (cls : EventClass) : Meter where
  reading := (·.eventCount cls)
  base := fun s => (Dict.get s.eventsByClassAtWindowStart cls).getD 0
  delta := (·.eventsOf cls)
  lag := fun _ => 0

theorem collectorMeter_sound {ns : List String} (hns : ns.Nodup) {name : String} (hname : name ∈ ns) :
    (collectorMeter name).Sound ns where
  delta_build := by
    intro s now
    show HourlyStatus.emittedInWindow _ name = _ - _
    rw [HourlyStatus.emittedInWindow, HourlyNode.buildHourlyStatus, List.find?_map]
    dsimp only [collectorMeter]
    have hsame : ((fun r : CollectorReport => decide (r.name = name)) ∘ s.collectorReport) =
        fun c => decide (c.name = name) := rfl
    rw [hsame, HourlyNode.emittedCount]
    cases hfind : s.collectors.find? (·.name = name) with
    | none => simp
    | some c =>
      have hc : c.name = name := by simpa using List.find?_some hfind
      simp [HourlyNode.collectorReport, hc]
  base_work := fun s w => by cases w <;> rfl
  reading_works := fun s ws hs => (emittedCount_works (hs ▸ hname) ws).ge
  sent := by
    intro s now during hs
    refine ⟨rfl, ?_⟩
    have hnodup : ((s.works during).collectors.map (·.name)).Nodup := by
      rw [← HourlyNode.names, names_works, hs]
      exact hns
    exact (congrArg (Option.getD · 0) (get_emittedCounts hnodup)).trans
      (emittedCount_works (hs ▸ hname) during)

theorem classMeter_sound (ns : List String) (cls : EventClass) : (classMeter cls).Sound ns where
  delta_build := fun s now => by cases cls <;> rfl
  base_work := fun s w => by cases w <;> rfl
  reading_works := fun s ws _ => eventCount_works ws
  sent := fun s now during _ => ⟨rfl, rfl⟩

theorem buildCollectors_nodup (cfg : CollectorsConfig) (fault : String → Option String) :
    ((buildCollectors cfg fault).map (·.name)).Nodup := by
  have hif : ∀ (b : Bool) (name : String), (if b then [name] else []).Sublist [name] := by
    intro b name
    cases b
    · exact List.nil_sublist _
    · exact List.Sublist.refl _
  have hnames :
      ["linux_journald", "linux_audit", "linux_firewall", "linux_proc", "host_lifecycle"].Nodup := by
    decide
  rw [buildCollectors, List.map_map]
  refine List.Nodup.sublist ?_ hnames
  refine (List.map_id _).symm ▸ ?_
  exact ((((hif _ _).append (hif _ _)).append (hif _ _)).append (hif _ _)).append (hif _ _)

/-- **Windows of the hourly status.** Whatever happened before the start and
whatever fails after it, the windows add up exactly when no collector found
events during the await of a snapshot that was sent and followed by another. -/
theorem hourly_windows_iff (cfg : CollectorsConfig) (fault : String → Option String) (boot now now' : Flt)
    (before : List Work) (ops : List HourlyOp) :
    let start := ((HourlyNode.booted cfg fault boot).works before).startHourlyStatus now now'
    Telescopes start (start.sent ops) ↔
      ∀ name ∈ start.names, ∀ during ∈ (awaits ops).dropLast, eventsFound name during = 0 := by
  intro start
  have hnodup : start.names.Nodup := by
    have hnames : start.names = ((HourlyNode.booted cfg fault boot).works before).names := rfl
    rw [hnames, names_works]
    exact buildCollectors_nodup cfg fault
  have hcollector : ∀ name ∈ start.names, _ := fun name hname =>
    (collectorMeter_sound hnodup hname).telescopes_iff ops (s := start) rfl
      (congrArg (Option.getD · 0) (get_emittedCounts hnodup))
  constructor
  · intro h name hname
    exact (hcollector name hname).1 (h.collectors name hname)
  · intro h
    refine ⟨fun name hname => (hcollector name hname).2 (h name hname), fun cls => ?_⟩
    exact ((classMeter_sound start.names cls).telescopes_iff ops rfl rfl).2 fun _ _ => rfl

/-- A node with one collector, after the start of the snapshots. -/
def procNode : HourlyNode :=
  (HourlyNode.booted ⟨false, false, false, true, false⟩ (fun _ => none) (.fin 0)).startHourlyStatus
    (.fin 0) (.fin 0)

/-- The collector finds two events while the first of two snapshots is
broadcast. -/
def pollInAwait : List HourlyOp :=
  [.snapshot (.fin 3600)
      [.emit .B "node_hourly_status", .poll "linux_proc" ⟨.fin 3601, none, .fin 3601, 2⟩] true,
    .snapshot (.fin 7200) [.emit .B "node_hourly_status"] true]

/-- Both windows report zero events. -/
theorem events_found_in_the_await_lost : ¬ Telescopes procNode (procNode.sent pollInAwait) := by
  intro h
  have hproc := h.collectors "linux_proc" (by decide +kernel)
  have hlost : procNode.emittedCount "linux_proc" +
        ((procNode.sent pollInAwait).map (·.payload.emittedInWindow "linux_proc")).sum = 0 ∧
      (lastBuilt procNode (procNode.sent pollInAwait)).emittedCount "linux_proc" = 2 := by
    decide +kernel
  rw [hlost.1, hlost.2] at hproc
  cases hproc

end Mdrj.L4
