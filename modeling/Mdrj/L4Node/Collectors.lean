import Mathlib
import Mdrj.Core.Patterns
import Mdrj.L1Encoding.Sha256
import Mdrj.L4Node.AuthLog

/-!
# Collectors

A collector is polled for what it has seen of the host since the last poll.
What it keeps between polls is written by the poll itself, before anybody
has looked at the events. A poll that returned can be followed by one that
finds nothing new (`Poller.settles`); that is all the loops over the
collectors need to know.

Here: the firewall rules, the boot time of the host, and the journal. What
a collector reads of the host is the input of a poll.
-/
namespace Mdrj.L4.Collect
open Mdrj.Core Mdrj.L1 Mdrj.L3

/-! ## Events and collectors -/

/-- mirrors mdrj/collectors/base.py:12-19 -/
structure CollectedEvent where
  eventKind : String
  payload : Dict String Json

/-- `d.setdefault(key, value)`. -/
def setDefault (d : Dict String Json) (key : String) (value : Json) : Dict String Json :=
  match Dict.get d key with
  | some _ => d
  | none => Dict.set d key value

theorem get_setDefault {d : Dict String Json} {key other : String} {value v : Json}
    (h : Dict.get d other = some v) : Dict.get (setDefault d key value) other = some v := by
  unfold setDefault
  split
  · exact h
  · next habsent =>
    have hne : key ≠ other := by
      rintro rfl
      rw [h] at habsent
      cases habsent
    rw [Dict.get_set_ne d value hne, h]

/-- mirrors mdrj/collectors/base.py:21-24 -/
def CollectedEvent.toPayload (event : CollectedEvent) : Dict String Json :=
  setDefault event.payload "event_kind" (.str event.eventKind)

/-- The names a collector puts on its events. -/
structure Agent where
  nodeId : String
  hostId : String

/-- mirrors mdrj/collectors/base.py:74-80 -/
def Agent.annotate (agent : Agent) (event : CollectedEvent) : CollectedEvent :=
  let payload := if agent.hostId = "" then event.payload else setDefault event.payload "host_id" (.str agent.hostId)
  let payload := if agent.nodeId = "" then payload else setDefault payload "node_id" (.str agent.nodeId)
  { event with payload }

@[simp] theorem Agent.annotate_eventKind (agent : Agent) (event : CollectedEvent) :
    (agent.annotate event).eventKind = event.eventKind := rfl

/-- The names are added to what the payload says. -/
theorem Agent.annotate_get {agent : Agent} {event : CollectedEvent} {key : String} {v : Json}
    (h : Dict.get event.payload key = some v) : Dict.get (agent.annotate event).payload key = some v := by
  unfold annotate
  dsimp only
  have hhost : Dict.get (if agent.hostId = "" then event.payload
      else setDefault event.payload "host_id" (.str agent.hostId)) key = some v := by
    split
    · exact h
    · exact get_setDefault h
  split
  · exact hhost
  · exact get_setDefault hhost

/-- Something that is polled: `σ` is kept between polls, `ω` is what a poll
reads. -/
structure Poller (σ ω ε : Type) where
  poll : σ → ω → σ × Except PyError (List ε)
  settles : ∀ {s w s' events}, poll s w = (s', .ok events) → ∃ w', poll s' w' = (s', .ok [])

abbrev Collector (σ ω : Type) := Poller σ ω CollectedEvent

/-! ## The firewall -/

structure Firewall where
  enabled : Bool
  lastDigest : Option String := none
  firstPoll : Bool := true

/-- How the tool ends. -/
inductive ToolRun where
  | unavailable                                  -- not found, or no answer in time
  | undecodable
  | exited (returncode : Int) (stdout : String)

/-- mirrors mdrj/collectors/linux_firewall.py:55-90 -/
def Firewall.poll (agent : Agent) (tool : String) (s : Firewall) (result : ToolRun) :
    Firewall × Except PyError (List CollectedEvent) :=
  if !s.enabled then (s, .ok [])
  else match result with
    | .unavailable => (s, .ok [])
    | .undecodable => (s, .error (.valueError "codec can't decode byte"))
    | .exited returncode stdout =>
      if returncode ≠ 0 then (s, .ok [])
      else
        let digest := Sha256.hexdigest stdout
        let s' := { s with lastDigest := some digest, firstPoll := false }
        if s.firstPoll ∨ s.lastDigest = some digest then (s', .ok [])
        else (s', .ok [agent.annotate {
          eventKind := "iptables_rule_changed"
          payload := [("category", .str "network"), ("tool", .str tool),
            ("previous_digest", (s.lastDigest.map Json.str).getD .null), ("current_digest", .str digest),
            ("ruleset_bytes", .int stdout.length)] }])

/-- Without the tool, a poll finds nothing. -/
theorem Firewall.poll_unavailable (agent : Agent) (tool : String) (s : Firewall) :
    s.poll agent tool .unavailable = (s, .ok []) := by
  unfold poll
  split
  · rfl
  · rfl

def firewallCollector (agent : Agent) (tool : String) : Collector Firewall ToolRun where
  poll := Firewall.poll agent tool
  settles _ := ⟨.unavailable, Firewall.poll_unavailable agent tool _⟩

/-! ## The boot time of the host -/

structure HostLifecycle where
  enabled : Bool
  knownBootTime : Option Flt := none
  firstPollDone : Bool := false

/-- `/proc/uptime`, `none` if it cannot be read as a number, and the clock
when it was read and when the event is written. -/
structure UptimeRead where
  uptime : Option Flt
  now : Flt
  later : Flt

/-- `abs(x)`. -/
def magnitude (x : Flt) : Flt := if x.lt (.fin 0) then x.neg else x

/-- mirrors mdrj/collectors/host_lifecycle.py:61-123 -/
def HostLifecycle.poll (agent : Agent) (driftThreshold : Flt) (s : HostLifecycle) (read : UptimeRead) :
    HostLifecycle × Except PyError (List CollectedEvent) :=
  if !s.enabled then (s, .ok [])
  else match read.uptime with
    | none => (s, .ok [])
    | some uptime =>
      let bootTime := read.now.sub uptime
      if !s.firstPollDone then
        ({ s with knownBootTime := some bootTime, firstPollDone := true }, .ok [agent.annotate {
          eventKind := "host_boot"
          payload := [("category", .str "system_lifecycle"), ("boot_time", .float bootTime),
            ("uptime_at_observation_sec", .float (read.later.sub bootTime)),
            ("description", .str "Загрузка операционной системы хоста зафиксирована при старте узла.")] }])
      else match s.knownBootTime with
        | none => (s, .ok [])
        | some known =>
          let drift := magnitude (bootTime.sub known)
          if driftThreshold.lt drift then
            ({ s with knownBootTime := some bootTime }, .ok [agent.annotate {
              eventKind := "host_reboot"
              payload := [("category", .str "system_lifecycle"), ("previous_boot_time", .float known),
                ("new_boot_time", .float bootTime), ("drift_sec", .float drift),
                ("description", .str
                  "Зафиксирована новая загрузка операционной системы хоста за время работы узла.")] }])
          else (s, .ok [])

theorem HostLifecycle.poll_unreadable (agent : Agent) (driftThreshold : Flt) (s : HostLifecycle) (now later : Flt) :
    s.poll agent driftThreshold ⟨none, now, later⟩ = (s, .ok []) := by
  unfold poll
  split
  · rfl
  · rfl

def hostLifecycleCollector (agent : Agent) (driftThreshold : Flt) : Collector HostLifecycle UptimeRead where
  poll := HostLifecycle.poll agent driftThreshold
  settles _ := ⟨⟨none, .fin 0, .fin 0⟩, HostLifecycle.poll_unreadable agent driftThreshold _ _ _⟩

/-! ## The journal -/

structure JournaldConfig where
  burstWindowSec : Int := 60
  burstThreshold : Int := 10

structure Journald where
  enabled : Bool
  failureWindow : List Flt := []
  lastCursor : Option Json := none
  lastBurstEmitAt : Flt := .fin 0

/-- A line of `journalctl --output=json`: blank or no JSON, JSON that is no
object, or a record. `cursor` is there if it is true, `message` is the text
(empty if there is none), `realtime` the time of the record, which is the
clock if it has none, and `now` the clock. -/
inductive JournalLine where
  | skipped
  | noObject
  | record (cursor : Option Json) (message : String) (realtime now : Flt)

section Journal
variable (host : Ingest.Host) (config : JournaldConfig)

/-- mirrors mdrj/collectors/linux_journald.py:17-19 -/
def failedSsh : Pattern :=
  let named (credential : String) := Pattern.sequence [Pattern.literal ("Failed " ++ credential ++ " for "),
    Pattern.optional (Pattern.literal "invalid user "), Pattern.group "user" (Pattern.chars Ingest.nonSpace 1 none),
    Pattern.literal " from ", Pattern.group "ip" (Pattern.chars Ingest.nonSpace 1 none)]
  fun text => named "password" text ++ named "publickey" text

/-- `isoformat` of a time, or what `datetime` raises. -/
def isoTime (ts : Flt) : Except PyError String :=
  match host.fromTimestamp ts with
  | some text => .ok text
  | none => .error (.valueError "year is out of range")

/-- mirrors mdrj/collectors/linux_journald.py:131-153 -/
def Journald.maybeEmitBurst (s : Journald) (now realtime : Flt) :
    Journald × Except PyError (List CollectedEvent) :=
  let cutoff := realtime.sub ((Flt.ofInt config.burstWindowSec).getD .posInf)
  let window := s.failureWindow.dropWhile fun t => t.lt cutoff
  let s := { s with failureWindow := window }
  if (window.length : Int) < config.burstThreshold then (s, .ok [])
  else if (now.sub s.lastBurstEmitAt).lt ((Flt.ofInt config.burstWindowSec).getD .posInf) then (s, .ok [])
  else
    let s := { s with lastBurstEmitAt := now }
    match window with
    | [] => (s, .error (.keyError "deque index out of range"))
    | first :: _ =>
      match isoTime host first, isoTime host realtime with
      | .ok firstFailureAt, .ok lastFailureAt => (s, .ok [{
          eventKind := "failed_login_burst"
          payload := [("category", .str "authentication"), ("count", .int window.length),
            ("window_sec", .int config.burstWindowSec), ("first_failure_at", .str firstFailureAt),
            ("last_failure_at", .str lastFailureAt)] }])
      | .error e, _ => (s, .error e)
      | _, .error e => (s, .error e)

/-- The window is a `deque` of at most 2048 times. -/
def pushed (window : List Flt) (ts : Flt) : List Flt :=
  if window.length < 2048 then window ++ [ts] else window.tail ++ [ts]

/-- mirrors mdrj/collectors/linux_journald.py:103-129 -/
def Journald.extractEvents (s : Journald) (message : String) (realtime now : Flt) :
    Journald × Except PyError (List CollectedEvent) :=
  match failedSsh.search message.toList with
  | none => (s, .ok [])
  | some groups =>
    match isoTime host realtime with
    | .error e => (s, .error e)
    | .ok occurredAt =>
      let failure : CollectedEvent := {
        eventKind := "admin_login_failure"
        payload := [("principal", .str (groups.named "user")), ("source_ip", .str (groups.named "ip")),
          ("target_service", .str "sshd"), ("result", .str "failure"), ("occurred_at", .str occurredAt),
          ("category", .str "authentication"), ("raw_line", .str message)] }
      match Journald.maybeEmitBurst host config { s with failureWindow := pushed s.failureWindow realtime } now realtime with
      | (s, .ok burst) => (s, .ok (failure :: burst))
      | (s, .error e) => (s, .error e)

/-- mirrors mdrj/collectors/linux_journald.py:88-101 -/
def Journald.parseLines (s : Journald) : List JournalLine → Journald × Except PyError (List CollectedEvent)
  | [] => (s, .ok [])
  | .skipped :: lines => Journald.parseLines s lines
  | .noObject :: _ => (s, .error .typeError)
  | .record cursor message realtime now :: lines =>
    let s := { s with lastCursor := cursor.or s.lastCursor }
    match s.extractEvents host config message realtime now with
    | (s, .error e) => (s, .error e)
    | (s, .ok events) =>
      match Journald.parseLines s lines with
      | (s, .ok more) => (s, .ok (events ++ more))
      | (s, .error e) => (s, .error e)

/-- A poll; `none` if `journalctl` fails.
mirrors mdrj/collectors/linux_journald.py:56-75 -/
def Journald.poll (agent : Agent) (s : Journald) (lines : Option (List JournalLine)) :
    Journald × Except PyError (List CollectedEvent) :=
  if !s.enabled then (s, .ok [])
  else match lines with
    | none => (s, .ok [])
    | some lines =>
      match s.parseLines host config lines with
      | (s, .ok events) => (s, .ok (events.map agent.annotate))
      | (s, .error e) => (s, .error e)

theorem Journald.poll_failed (agent : Agent) (s : Journald) : s.poll host config agent none = (s, .ok []) := by
  unfold poll
  split
  · rfl
  · rfl

def journaldCollector (agent : Agent) : Collector Journald (Option (List JournalLine)) where
  poll := Journald.poll host config agent
  settles _ := ⟨none, Journald.poll_failed host config agent _⟩

end Journal
end Mdrj.L4.Collect
