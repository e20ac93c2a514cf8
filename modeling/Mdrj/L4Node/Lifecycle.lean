import Mdrj.Core.Runs
import Mdrj.L4Node.SelfChain

/-!
# Detecting a killed process

A process announces its start and, when it is stopped in an orderly way, its
stop. The next process looks for the last of these announcements that the
database still holds: if it is a start, the process before was killed, and an
event of class A says so.

Starts and stops are of class B, so a retention pass may delete the start of a
process that runs for long. If that process is then killed, the last
announcement left is an older one, and the kill goes unnoticed
(`killed_unnoticed`). The detection is exact in the runs in which the start of
a killed process is still stored when it is killed, and in which nobody makes
the node emit lifecycle events of its own (`kill_detection_exact`).

Left out: the broadcast of the emitted events.
-/
namespace Mdrj.L4
open Mdrj.Core Mdrj.L1 Mdrj.L3

/-- mirrors mdrj/node.py:1718 -/
inductive ServiceKind where
  | start | stop | killed
  deriving DecidableEq, Repr

def ServiceKind.value : ServiceKind → String
  | .start => "mdrj_service_start"
  | .stop => "mdrj_service_stop"
  | .killed => "mdrj_service_killed"

def serviceLifecycleKinds : List ServiceKind := [.start, .stop, .killed]

/-- `payload.get("event_kind")`, if it is one of the lifecycle. -/
def serviceKind : Json → Option ServiceKind
  | .obj fields =>
    match Dict.get fields "event_kind" with
    | some (.str kind) => serviceLifecycleKinds.find? fun k => k.value = kind
    | _ => none
  | _ => none

/-- The machine a node runs on. -/
structure Host where
  hostId : String := ""          -- `linux_ingest.host_id`; empty when unset
  runtimeHostname : String
  listen : String
  listenHost : String
  listenPort : Int

/-- The clock readings of an emission, and its random draw: `made` goes into
the payload, `ts` into the event, `now` into the row. -/
structure Moment where
  made : ℚ
  ts : ℚ
  now : ℚ
  pick : Nat

namespace Node

/-- `linux_ingest.host_id or node_id`. -/
def hostName (n : Node) (host : Host) : String := if host.hostId = "" then n.config.nodeId else host.hostId

/-- mirrors mdrj/node.py:1041-1052 -/
def selfIdentity (n : Node) (host : Host) : List (String × Json) :=
  [("subject_node_id", .str n.config.nodeId), ("host_id", .str (n.hostName host)),
    ("runtime_hostname", .str host.runtimeHostname), ("listen", .str host.listen),
    ("listen_host", .str host.listenHost), ("listen_port", .int host.listenPort),
    ("identity_scope", .str "self")]

/-- mirrors mdrj/node.py:1720-1731 -/
def lastOwnServiceEvent (n : Node) : Option Event :=
  let own := n.storage.allEvents.filter fun e =>
    decide (e.creator = n.config.nodeId) && (serviceKind e.payload).isSome
  (own.insertionSort fun a b => Flt.lt b.tsLocal a.tsLocal = false).getLast?

def servicePayload (n : Node) (host : Host) (kind : ServiceKind) (details : List (String × Json)) : Json :=
  .obj ([("event_kind", .str kind.value), ("node_id", .str n.config.nodeId),
    ("host_id", .str (n.hostName host))] ++ details)

def emitService (n : Node) (cls : EventClass) (host : Host) (kind : ServiceKind)
    (details : List (String × Json)) (m : Moment) : Call Bool :=
  n.emitEvent cls (n.servicePayload host kind details) (.fin m.ts) (.fin m.now) m.pick

/-- Whether the last process was not stopped, as far as the database tells. -/
def unclean (n : Node) : Bool :=
  match n.lastOwnServiceEvent with
  | none => false
  | some last => serviceKind last.payload = some .start

/-- Returns whether the event has been emitted.
mirrors mdrj/node.py:1733-1759 -/
def maybeEmitServiceKilled (n : Node) (host : Host) (m : Moment) : Call Bool :=
  match n.lastOwnServiceEvent with
  | none => ⟨n, .ok false⟩
  | some last =>
    if serviceKind last.payload = some .start then
      n.emitService .A host .killed [("previous_start_id", .str last.id),
        ("previous_start_ts", .float last.tsLocal), ("detected_at", .float (.fin m.made))] m
    else ⟨n, .ok false⟩

/-- mirrors mdrj/node.py:1761-1774 -/
def emitServiceStart (n : Node) (host : Host) (m : Moment) : Call Bool :=
  n.emitService .B host .start [("ts", .float (.fin m.made))] m

/-- mirrors mdrj/node.py:1776-1786 -/
def emitServiceStop (n : Node) (host : Host) (m : Moment) : Call Bool :=
  n.emitService .B host .stop [("ts", .float (.fin m.made))] m

end Node

/-! ## Sequences of processes -/

/-- The call has returned, and has written a row. -/
def Call.succeeded (c : Call Bool) : Bool :=
  match c.result with
  | .ok stored => stored
  | .error _ => false

/-- What became of the last process. -/
inductive ProcessState where
  | never
  | running (startId : String)
  | stopped
  | killed
  deriving DecidableEq

def ProcessState.isRunning : ProcessState → Bool
  | .running _ => true
  | _ => false

structure Service where
  node : Node
  host : Host
  state : ProcessState := .never
  time : ℚ               -- the last clock reading of a lifecycle event
  alarm : Bool := false  -- whether the last start has emitted a kill

inductive ServiceAct where
  | start (genesisTs boot : Flt) (killed started : Moment)
  | stop (m : Moment)
  | kill
  | emit (cls : EventClass) (payload : Json) (ts now : Flt) (pick : Nat)
  | ingest (envelopes : List (Envelope × Flt))
  | retain (now : Flt)
  | checkpoint (table : Dict Int CheckpointRow)

namespace Service

/-- The node of a new process. -/
def rebooted (s : Service) (genesisTs boot : Flt) : Node :=
  (s.node.restart (s.node.selfIdentity s.host) genesisTs boot).node

/-- The check for a kill, and what it leaves. -/
def checked (s : Service) (genesisTs boot : Flt) (killed : Moment) : Call Bool :=
  (s.rebooted genesisTs boot).maybeEmitServiceKilled s.host killed

/-- A start does what mdrj/node.py:272-273 does after a restart; `checkpoint`
is what the other operations make of the checkpoints. -/
def step (s : Service) : ServiceAct → Service
  | .start genesisTs boot killed started =>
    let n := (s.checked genesisTs boot killed).node
    { s with
      node := (n.emitServiceStart s.host started).node
      state := .running (n.nextEvent .B (n.servicePayload s.host .start
        [("ts", .float (.fin started.made))]) (.fin started.ts) started.pick).id
      time := started.now
      alarm := (s.checked genesisTs boot killed).succeeded }
  | .stop m => { s with node := (s.node.emitServiceStop s.host m).node, state := .stopped, time := m.now }
  | .kill => { s with state := .killed }
  | .emit cls payload ts now pick => { s with node := (s.node.emitEvent cls payload ts now pick).node }
  | .ingest envelopes => { s with node := (s.node.ingestEnvelopes envelopes).node }
  | .retain now => { s with node := (s.node.runRetentionOnce now).node }
  | .checkpoint table => { s with node := s.node.withCheckpoints table }

/-- Before the first process, on an empty database. -/
def fresh (config : NodeConfig) (membership : Membership) (host : Host) (time : ℚ) : Service where
  node := { config := config, membership := membership }
  host := host
  time := time

end Service

/-- The creator of an event as it is read back from the database. -/
def storedCreator (e : Event) : String :=
  if e.creator = "" then (if e.source = "" then "unknown" else e.source) else e.creator

/-- The clock has not gone back. -/
def Moment.After (time : ℚ) (m : Moment) : Prop := time ≤ m.made ∧ m.made ≤ m.ts ∧ m.ts ≤ m.now

/-- The sequences of processes: the lifecycle events are emitted and the
clock does not go back; everything else happens while a process runs, and
other nodes made what is ingested. -/
def Service.Regular (s : Service) : ServiceAct → Prop
  | .start genesisTs boot killed started =>
    s.state.isRunning = false ∧ killed.After s.time ∧ started.After killed.now ∧
      ((s.rebooted genesisTs boot).unclean = true → (s.checked genesisTs boot killed).succeeded = true) ∧
      ((s.checked genesisTs boot killed).node.emitServiceStart s.host started).succeeded = true
  | .stop m => s.state.isRunning = true ∧ m.After s.time ∧ (s.node.emitServiceStop s.host m).succeeded = true
  | .kill => s.state.isRunning = true
  | .emit .. => s.state.isRunning = true
  | .ingest envelopes =>
    s.state.isRunning = true ∧ ∀ p ∈ envelopes, storedCreator p.1.event ≠ s.node.config.nodeId
  | .retain _ => s.state.isRunning = true
  | .checkpoint _ => s.state.isRunning = true

/-! ## The lifecycle rows of a database -/

/-- What the detection reads of a row. -/
structure ServiceEntry where
  id : String
  creator : String
  kind : Option ServiceKind
  tsLocal : Flt
  createdAt : Flt

def serviceEntry (row : EventRow) : ServiceEntry where
  id := row.event.id
  creator := storedCreator row.event
  kind := serviceKind row.event.payload
  tsLocal := row.event.tsLocal
  createdAt := row.createdAt

def ServiceEntry.own (nodeId : String) (x : ServiceEntry) : Bool :=
  decide (x.creator = nodeId) && x.kind.isSome

/-- The node's own lifecycle rows, in the order of their insertion. -/
def Node.serviceLog (n : Node) : List ServiceEntry :=
  (n.storage.events.map serviceEntry).filter (ServiceEntry.own n.config.nodeId)

/-- The second was not recorded before the first. -/
def ServiceEntry.Precedes (x y : ServiceEntry) : Prop :=
  Flt.lt y.createdAt x.createdAt = false ∧ Flt.lt y.tsLocal x.tsLocal = false

/-- The detection looks at the last row. -/
theorem unclean_iff {n : Node} (h : n.serviceLog.Pairwise ServiceEntry.Precedes) :
    n.unclean = true ↔ ∃ x, n.serviceLog.getLast? = some x ∧ x.kind = some .start := by
  have hlog : n.serviceLog = (n.storage.events.filter
      (ServiceEntry.own n.config.nodeId ∘ serviceEntry)).map serviceEntry := List.filter_map
  rw [hlog, List.pairwise_map] at h
  -- neither sort moves these rows
  have hstable := filter_insertionSort_of (h.imp And.left)
  have hown : (n.storage.allEvents.filter fun e =>
      decide (e.creator = n.config.nodeId) && (serviceKind e.payload).isSome) =
      (n.storage.events.filter (ServiceEntry.own n.config.nodeId ∘ serviceEntry)).map
        DAGStorage.loadEvent := by
    rw [← hstable]
    unfold DAGStorage.allEvents
    rw [List.filter_map]
    rfl
  have hsorted : (n.storage.events.filter (ServiceEntry.own n.config.nodeId ∘ serviceEntry)).map
      DAGStorage.loadEvent |>.Pairwise fun a b => Flt.lt b.tsLocal a.tsLocal = false := by
    rw [List.pairwise_map]
    exact h.imp And.right
  unfold Node.unclean Node.lastOwnServiceEvent
  dsimp only
  rw [hown, hsorted.insertionSort_eq, hlog, List.getLast?_map, List.getLast?_map]
  cases (n.storage.events.filter (ServiceEntry.own n.config.nodeId ∘ serviceEntry)).getLast? with
  | none => simp
  | some row => simp [serviceEntry, DAGStorage.loadEvent]

/-! ## What the operations do to these rows -/

section Operations
variable {n : Node}

theorem serviceLog_congr {n' : Node} (hconfig : n'.config = n.config)
    (hentries : n'.storage.events.map serviceEntry = n.storage.events.map serviceEntry) :
    n'.serviceLog = n.serviceLog := by
  unfold Node.serviceLog
  rw [hconfig, hentries]

/-- An envelope adds at most its own event. -/
theorem storeEnvelope_entries {s s' : DAGStorage} {envelope : Envelope} {ts : Option Flt} {now : Flt}
    {stored : Bool} (hs : s.storeEnvelope envelope ts now = .ok (s', stored)) :
    stored = false ∧ s'.events.map serviceEntry = s.events.map serviceEntry ∨
      stored = true ∧ envelope.event.id ∉ s.ids ∧
        s'.events.map serviceEntry = s.events.map serviceEntry ++ [serviceEntry ⟨envelope.event, now⟩] := by
  have hunfilled : DAGStorage.Unfilled serviceEntry := fun _ _ _ _ => rfl
  rcases DAGStorage.storeEnvelope_map hunfilled hs with ⟨-, hstored, hentries⟩ | ⟨hid, hstored, hentries⟩
  · exact .inl ⟨hstored, hentries⟩
  · exact .inr ⟨hstored, hid, hentries⟩

theorem recompute_entries (n : Node) :
    n.recomputeConsensus.node.storage.events.map serviceEntry = n.storage.events.map serviceEntry := by
  obtain ⟨states, hnode⟩ := n.recomputeConsensus_node
  rw [hnode]
  exact DAGStorage.replaceConsensusState_map (fun _ _ => rfl) n.storage states

/-- An emission writes its event, or nothing and fails. -/
theorem emitEvent_entries (n : Node) (cls : EventClass) (payload : Json) (ts now : Flt) (pick : Nat) :
    (n.emitEvent cls payload ts now pick).succeeded = false ∧
        (n.emitEvent cls payload ts now pick).node.storage.events.map serviceEntry =
          n.storage.events.map serviceEntry ∨
      (n.nextEvent cls payload ts pick).id ∉ n.storage.ids ∧
        (n.emitEvent cls payload ts now pick).node.storage.events.map serviceEntry =
          n.storage.events.map serviceEntry ++ [serviceEntry ⟨n.nextEvent cls payload ts pick, now⟩] := by
  unfold Node.emitEvent Node.persistEnvelope
  dsimp only
  cases hs : n.storage.storeEnvelope ⟨n.nextEvent cls payload ts pick, [⟨some n.config.nodeId, some ts⟩]⟩
      (n.nextEvent cls payload ts pick).consensusTs now with
  | error err => exact .inl ⟨rfl, rfl⟩
  | ok p =>
    obtain ⟨s, stored⟩ := p
    dsimp only
    have hrec := recompute_entries { n with
      storage := s
      vectorClock := mergeClock n.vectorClock (n.nextEvent cls payload ts pick).vclock
      anchors := n.anchorIds }
    rcases storeEnvelope_entries hs with ⟨rfl, hentries⟩ | ⟨-, hid, hentries⟩
    · refine .inl ?_
      split
      · rename_i n' err hn
        rw [hn] at hrec
        exact ⟨rfl, hrec.trans hentries⟩
      · rename_i n' hn
        rw [hn] at hrec
        exact ⟨rfl, hrec.trans hentries⟩
    · refine .inr ⟨hid, ?_⟩
      split
      · rename_i n' err hn
        rw [hn] at hrec
        exact hrec.trans hentries
      · rename_i n' hn
        rw [hn] at hrec
        exact hrec.trans hentries

/-- Events that are not of the lifecycle, or of another node, leave the rows
alone. -/
theorem filter_append_other {entries : List ServiceEntry} {x : ServiceEntry} {nodeId : String}
    (hx : x.own nodeId = false) :
    (entries ++ [x]).filter (ServiceEntry.own nodeId) = entries.filter (ServiceEntry.own nodeId) := by
  rw [List.filter_append, List.filter_cons_of_neg (by rw [hx]; decide), List.filter_nil, List.append_nil]

theorem emitEvent_other (cls : EventClass) {payload : Json} (ts now : Flt) (pick : Nat)
    (hkind : serviceKind payload = none) :
    (n.emitEvent cls payload ts now pick).node.serviceLog = n.serviceLog := by
  have hconfig := (Node.emitEvent_same n cls payload ts now pick).config
  rcases emitEvent_entries n cls payload ts now pick with ⟨-, hentries⟩ | ⟨-, hentries⟩
  · exact serviceLog_congr hconfig hentries
  · have hpayload : (n.nextEvent cls payload ts pick).payload = payload := rfl
    unfold Node.serviceLog
    rw [hconfig, hentries, filter_append_other]
    simp [ServiceEntry.own, serviceEntry, hpayload, hkind]

theorem persistEnvelope_foreign {envelope : Envelope} (now : Flt)
    (hforeign : storedCreator envelope.event ≠ n.config.nodeId) :
    (n.persistEnvelope envelope now).node.serviceLog = n.serviceLog := by
  unfold Node.persistEnvelope
  split
  · rfl
  · rename_i s stored hs
    rcases storeEnvelope_entries hs with ⟨-, hentries⟩ | ⟨-, -, hentries⟩
    · exact serviceLog_congr rfl hentries
    · unfold Node.serviceLog
      rw [hentries, filter_append_other]
      simp [ServiceEntry.own, serviceEntry, hforeign]

theorem ingestEnvelopes_foreign {envelopes : List (Envelope × Flt)}
    (hforeign : ∀ p ∈ envelopes, storedCreator p.1.event ≠ n.config.nodeId) :
    (n.ingestEnvelopes envelopes).node.serviceLog = n.serviceLog := by
  have hkept := Node.ingestEnvelopes_ind (P := fun n' => n'.config = n.config ∧ n'.serviceLog = n.serviceLog)
    (Q := fun p => storedCreator p.1.event ≠ n.config.nodeId) ?_ ?_ hforeign ⟨rfl, rfl⟩
  · exact hkept.2
  · rintro n' p hp ⟨hconfig, hlog⟩
    have hsame := (Node.persistEnvelope_same n' p.1 p.2).config
    rw [← hconfig] at hp
    exact ⟨hsame.trans hconfig, (persistEnvelope_foreign p.2 hp).trans hlog⟩
  · rintro n' ⟨hconfig, hlog⟩
    have hsame := (Node.recomputeConsensus_same n').config
    exact ⟨hsame.trans hconfig, (serviceLog_congr hsame (recompute_entries n')).trans hlog⟩

/-- A new process adds at most a genesis event. -/
theorem restart_serviceLog (host : Host) (ts now : Flt) :
    (n.restart (n.selfIdentity host) ts now).node.serviceLog = n.serviceLog ∧
      (n.restart (n.selfIdentity host) ts now).node.config = n.config := by
  unfold Node.restart Node.bootstrapGenesis
  dsimp only
  split
  · split
    · exact ⟨rfl, rfl⟩
    · rename_i s stored hs
      refine ⟨?_, rfl⟩
      rcases storeEnvelope_entries hs with ⟨-, hentries⟩ | ⟨-, -, hentries⟩
      · exact serviceLog_congr rfl hentries
      · unfold Node.serviceLog
        rw [hentries, filter_append_other]
        rw [ServiceEntry.own, Bool.and_eq_false_iff]
        exact .inr rfl
  · exact ⟨rfl, rfl⟩

theorem retention_serviceLog (now : Flt) :
    ((n.runRetentionOnce now).node.serviceLog).Sublist n.serviceLog := by
  unfold Node.serviceLog
  rw [(Node.runRetentionOnce_same n now).config, runRetentionOnce_events]
  exact (List.filter_sublist.map serviceEntry).filter _

theorem serviceKind_payload (n : Node) (host : Host) (kind : ServiceKind) (details : List (String × Json)) :
    serviceKind (n.servicePayload host kind details) = some kind := by
  cases kind <;> rfl

theorem emitService_config (cls : EventClass) (host : Host) (kind : ServiceKind)
    (details : List (String × Json)) (m : Moment) :
    (n.emitService cls host kind details m).node.config = n.config :=
  (Node.emitEvent_same n cls _ _ _ _).config

/-- A lifecycle event that is emitted is the new last row. -/
theorem emitService_log (hname : n.config.nodeId ≠ "") {cls : EventClass} {host : Host} {kind : ServiceKind}
    {details : List (String × Json)} {m : Moment}
    (h : (n.emitService cls host kind details m).succeeded = true) :
    ∃ x, (n.emitService cls host kind details m).node.serviceLog = n.serviceLog ++ [x] ∧
      x.id = (n.nextEvent cls (n.servicePayload host kind details) (.fin m.ts) m.pick).id ∧
      x.kind = some kind ∧ x.tsLocal = .fin m.ts ∧ x.createdAt = .fin m.now ∧ ∀ y ∈ n.serviceLog, y.id ≠ x.id := by
  unfold Node.emitService at h ⊢
  rcases emitEvent_entries n cls (n.servicePayload host kind details) (.fin m.ts) (.fin m.now) m.pick with
    ⟨hfail, -⟩ | ⟨hid, hentries⟩
  · rw [h] at hfail
    cases hfail
  · set event := n.nextEvent cls (n.servicePayload host kind details) (.fin m.ts) m.pick
    have hcreator : storedCreator event = n.config.nodeId := by
      have hevent : event.creator = if n.config.nodeId = "" then n.config.nodeId else n.config.nodeId := rfl
      unfold storedCreator
      rw [hevent, if_neg hname, if_neg hname]
    have hkind : serviceKind event.payload = some kind := serviceKind_payload n host kind details
    have hown : (serviceEntry ⟨event, .fin m.now⟩).own n.config.nodeId = true := by
      simp [ServiceEntry.own, serviceEntry, hcreator, hkind]
    refine ⟨serviceEntry ⟨event, .fin m.now⟩, ?_, rfl, hkind, rfl, rfl, fun y hy => ?_⟩
    · unfold Node.serviceLog
      rw [(Node.emitEvent_same n cls _ _ _ _).config, hentries, List.filter_append,
        List.filter_cons_of_pos hown, List.filter_nil]
    · intro heq
      obtain ⟨row, hrow, rfl⟩ := List.mem_map.1 (List.mem_filter.1 hy).1
      exact hid (List.mem_map.2 ⟨row, hrow, heq⟩)

end Operations

/-! ## The rows are in order -/

/-- Rows in the order of both clocks, up to a time. -/
structure Ordered (time : ℚ) (log : List ServiceEntry) : Prop where
  precedes : log.Pairwise ServiceEntry.Precedes
  upTo : ∀ x ∈ log, ∃ ts now : ℚ, x.tsLocal = .fin ts ∧ x.createdAt = .fin now ∧ ts ≤ time ∧ now ≤ time

namespace Ordered
variable {time : ℚ} {log : List ServiceEntry}

theorem of_sublist (h : Ordered time log) {log' : List ServiceEntry} (hsub : log'.Sublist log) :
    Ordered time log' :=
  ⟨h.precedes.sublist hsub, fun x hx => h.upTo x (hsub.subset hx)⟩

theorem later (h : Ordered time log) {time' : ℚ} (hle : time ≤ time') : Ordered time' log := by
  refine ⟨h.precedes, fun x hx => ?_⟩
  obtain ⟨ts, now, hts, hnow, hle₁, hle₂⟩ := h.upTo x hx
  exact ⟨ts, now, hts, hnow, hle₁.trans hle, hle₂.trans hle⟩

theorem append (h : Ordered time log) {x : ServiceEntry} {m : Moment} (hm : m.After time)
    (hts : x.tsLocal = .fin m.ts) (hnow : x.createdAt = .fin m.now) : Ordered m.now (log ++ [x]) := by
  obtain ⟨hmade, hle, hle'⟩ := hm
  have hlog := h.later (hmade.trans (hle.trans hle'))
  refine ⟨List.pairwise_append.2 ⟨h.precedes, List.pairwise_singleton _ _, fun y hy z hz => ?_⟩, fun y hy => ?_⟩
  · rw [List.mem_singleton.1 hz]
    obtain ⟨ts, now, hy₁, hy₂, hle₁, hle₂⟩ := h.upTo y hy
    unfold ServiceEntry.Precedes
    rw [hts, hnow, hy₁, hy₂]
    simp only [Flt.lt, decide_eq_false_iff_not, not_lt]
    exact ⟨hle₂.trans (hmade.trans (hle.trans hle')), hle₁.trans (hmade.trans hle)⟩
  · rcases List.mem_append.1 hy with hy | hy
    · exact hlog.upTo y hy
    · rw [List.mem_singleton.1 hy]
      exact ⟨m.ts, m.now, hts, hnow, hle', le_rfl⟩

end Ordered

/-! ## Runs -/

/-- What the rows say of the last process. -/
def LogTells (log : List ServiceEntry) : ProcessState → Prop
  | .never => log = []
  | .running startId => (∃ x ∈ log, x.id = startId) → ∃ older x, log = older ++ [x] ∧ x.id = startId ∧
    x.kind = some .start ∧ ∀ y ∈ older, y.id ≠ startId
  | .stopped => ∃ x, log.getLast? = some x ∧ x.kind = some .stop
  | .killed => ∃ x, log.getLast? = some x ∧ x.kind = some .start

/-- Rows that are deleted change nothing for a process that runs. -/
theorem LogTells.of_sublist {log log' : List ServiceEntry} {state : ProcessState}
    (h : LogTells log state) (hrunning : state.isRunning = true) (hsub : log'.Sublist log) :
    LogTells log' state := by
  cases state with
  | running startId =>
    rintro ⟨y, hy, hid⟩
    obtain ⟨older, x, rfl, hx, hkind, hother⟩ := h ⟨y, hsub.subset hy, hid⟩
    obtain ⟨older', last, rfl, holder, hlast⟩ := List.sublist_append_iff.1 hsub
    rcases List.mem_append.1 hy with hy | hy
    · exact absurd hid (hother y (holder.subset hy))
    · -- the start itself is left
      have heq : last = [x] := by
        rcases List.sublist_singleton.1 hlast with hnil | heq
        · rw [hnil] at hy
          cases hy
        · exact heq
      exact ⟨older', x, by rw [heq], hx, hkind, fun z hz => hother z (holder.subset hz)⟩
  | never => cases hrunning
  | stopped => cases hrunning
  | killed => cases hrunning

namespace Service
variable {s : Service}

/-- The rows stay true: a process is killed while its start is still stored,
and other emissions do not pass for lifecycle events. -/
def Truthful (s : Service) : ServiceAct → Prop
  | .kill => ∀ startId, s.state = .running startId → ∃ x ∈ s.node.serviceLog, x.id = startId
  | .emit _ payload _ _ _ => serviceKind payload = none
  | _ => True

structure Inv (s : Service) : Prop where
  named : s.node.config.nodeId ≠ ""
  ordered : Ordered s.time s.node.serviceLog
  tells : LogTells s.node.serviceLog s.state

/-- A step that leaves the lifecycle rows of a running process alone, or
deletes some. -/
theorem Inv.of_sublist (h : Inv s) {n : Node} (hrunning : s.state.isRunning = true)
    (hconfig : n.config = s.node.config) (hsub : n.serviceLog.Sublist s.node.serviceLog) :
    Inv { s with node := n } :=
  ⟨hconfig ▸ h.named, h.ordered.of_sublist hsub, h.tells.of_sublist hrunning hsub⟩

/-- Without a start at the end of the rows no event is emitted. -/
theorem checked_clean {genesisTs boot : Flt} (h : (s.rebooted genesisTs boot).unclean = false)
    (killed : Moment) : s.checked genesisTs boot killed = ⟨s.rebooted genesisTs boot, .ok false⟩ := by
  unfold Node.unclean at h
  unfold checked Node.maybeEmitServiceKilled
  split
  · rfl
  · rename_i last hlast
    rw [hlast] at h
    rw [if_neg (of_decide_eq_false h)]

/-- The check for a kill tells what became of the last process, and adds a row
that is no start. -/
theorem checked_spec (h : Inv s) {genesisTs boot : Flt} {killed : Moment} (hidle : s.state.isRunning = false)
    (hkilled : killed.After s.time)
    (hemit : (s.rebooted genesisTs boot).unclean = true → (s.checked genesisTs boot killed).succeeded = true) :
    ((s.checked genesisTs boot killed).succeeded = true ↔ s.state = .killed) ∧
      (s.checked genesisTs boot killed).node.config.nodeId ≠ "" ∧
      Ordered killed.now (s.checked genesisTs boot killed).node.serviceLog := by
  obtain ⟨hlog, hconfig⟩ := restart_serviceLog s.host genesisTs boot (n := s.node)
  change (s.rebooted genesisTs boot).serviceLog = _ at hlog
  change (s.rebooted genesisTs boot).config = _ at hconfig
  have hname : (s.rebooted genesisTs boot).config.nodeId ≠ "" := hconfig ▸ h.named
  have hordered : Ordered s.time (s.rebooted genesisTs boot).serviceLog := hlog ▸ h.ordered
  have hunclean : (s.rebooted genesisTs boot).unclean = true ↔ s.state = .killed := by
    rw [unclean_iff hordered.precedes, hlog]
    have htells := h.tells
    cases hstate : s.state with
    | never =>
      rw [hstate] at htells
      have hnil : s.node.serviceLog = [] := htells
      simp [hnil]
    | running startId =>
      rw [hstate] at hidle
      cases hidle
    | stopped =>
      rw [hstate] at htells
      obtain ⟨x, hx, hkind⟩ := htells
      simp [hx, hkind]
    | killed =>
      rw [hstate] at htells
      exact iff_of_true htells rfl
  have hlater : Ordered killed.now (s.rebooted genesisTs boot).serviceLog :=
    hordered.later (hkilled.1.trans (hkilled.2.1.trans hkilled.2.2))
  cases hcheck : (s.rebooted genesisTs boot).unclean with
  | false =>
    rw [hcheck] at hunclean
    rw [checked_clean hcheck]
    exact ⟨hunclean, hname, hlater⟩
  | true =>
    have hdone := hemit hcheck
    rw [hcheck] at hunclean
    refine ⟨iff_of_true hdone (hunclean.1 rfl), ?_⟩
    unfold Node.unclean at hcheck
    unfold checked Node.maybeEmitServiceKilled at hdone ⊢
    split at hdone
    · cases hdone
    · rename_i last hlast
      rw [hlast] at hcheck
      rw [if_pos (of_decide_eq_true hcheck)] at hdone ⊢
      obtain ⟨x, hx, -, -, hts, hnow, -⟩ := emitService_log hname hdone
      rw [hx]
      rw [emitService_config]
      exact ⟨hname, hordered.append hkilled hts hnow⟩

theorem step_inv (h : Inv s) (act : ServiceAct) (hreg : s.Regular act) (htrue : s.Truthful act) :
    Inv (s.step act) := by
  cases act with
  | start genesisTs boot killed started =>
    obtain ⟨hidle, hkilled, hstarted, hemit, hdone⟩ := hreg
    obtain ⟨-, hname, hordered⟩ := checked_spec h hidle hkilled hemit
    obtain ⟨x, hx, hid, hkind, hts, hnow, hother⟩ := emitService_log hname hdone
    unfold step Node.emitServiceStart
    refine ⟨(emitService_config ..).symm ▸ hname, ?_, ?_⟩
    · dsimp only
      rw [hx]
      exact hordered.append hstarted hts hnow
    · dsimp only
      rw [hx]
      exact fun _ => ⟨_, x, rfl, hid, hkind, fun y hy => hid ▸ hother y hy⟩
  | stop m =>
    obtain ⟨-, hm, hdone⟩ := hreg
    obtain ⟨x, hx, -, hkind, hts, hnow, -⟩ := emitService_log h.named hdone
    unfold step Node.emitServiceStop
    refine ⟨(emitService_config ..).symm ▸ h.named, ?_, ?_⟩
    · dsimp only
      rw [hx]
      exact h.ordered.append hm hts hnow
    · dsimp only
      rw [hx]
      exact ⟨x, List.getLast?_concat, hkind⟩
  | kill =>
    refine ⟨h.named, h.ordered, ?_⟩
    have htells := h.tells
    cases hstate : s.state with
    | running startId =>
      rw [hstate] at htells
      obtain ⟨older, x, hlog, -, hkind, -⟩ := htells (htrue startId hstate)
      have hlast : s.node.serviceLog.getLast? = some x := by rw [hlog, List.getLast?_concat]
      exact ⟨x, hlast, hkind⟩
    | never | stopped | killed =>
      unfold Regular at hreg
      rw [hstate] at hreg
      cases hreg
  | emit cls payload ts now pick =>
    refine h.of_sublist hreg (Node.emitEvent_same ..).config ?_
    rw [emitEvent_other cls ts now pick htrue]
  | ingest envelopes =>
    refine h.of_sublist hreg.1 (Node.ingestEnvelopes_same ..).config ?_
    rw [ingestEnvelopes_foreign hreg.2]
  | retain now =>
    exact h.of_sublist hreg (Node.runRetentionOnce_same ..).config (retention_serviceLog now)
  | checkpoint table => exact h.of_sublist hreg rfl (List.Sublist.refl _)

theorem fresh_inv {config : NodeConfig} (hname : config.nodeId ≠ "") (membership : Membership) (host : Host)
    (time : ℚ) : Inv (fresh config membership host time) where
  named := hname
  ordered := ⟨List.Pairwise.nil, fun _ hx => absurd hx List.not_mem_nil⟩
  tells := rfl

/-- **Kill detection.** In every sequence of processes on one database in
which no process is killed after its start has been deleted, and no other
emission passes for a lifecycle event, the start of a process emits a kill
exactly if the process before was killed. -/
theorem kill_detection_exact (config : NodeConfig) (membership : Membership) (host : Host) (time : ℚ)
    (acts : List ServiceAct) (hname : config.nodeId ≠ "")
    (hacts : Admits step (fun s act => s.Regular act ∧ s.Truthful act) (fresh config membership host time)
      acts)
    (pre : List ServiceAct) (genesisTs boot : Flt) (killed started : Moment)
    (hpre : pre ++ [.start genesisTs boot killed started] <+: acts) :
    (run step (fresh config membership host time) (pre ++ [.start genesisTs boot killed started])).alarm = true ↔
      (run step (fresh config membership host time) pre).state = .killed := by
  have hinv : Inv (run step (fresh config membership host time) pre) :=
    run_invariant (I := Inv) (fun _ act h hok => step_inv h act hok.1 hok.2) (fresh_inv hname membership host time)
      (hacts.of_initial ((List.prefix_append _ _).trans hpre))
  obtain ⟨⟨hidle, hkilled, -, hemit, -⟩, -⟩ := admits_iff_steps.1 hacts pre _ hpre
  rw [run_concat]
  exact (checked_spec hinv hidle hkilled hemit).1

/-! ### A node that runs for a month -/

/-- A node that is its only member and deletes what is older than thirty
days. -/
def retaining : Service :=
  fresh { nodeId := "a", retention := { enabled := true } } ⟨[⟨"a", "self:a", "node", true⟩], ""⟩
    ⟨"", "box", "127.0.0.1:9000", "127.0.0.1", 9000⟩ 0

def firstStart : ServiceAct := .start (.fin 0) (.fin 0) ⟨0, 0, 0, 0⟩ ⟨0, 0, 0, 0⟩

/-- The ids of the first events of this node. -/
def genesisId : String := "ff036f263b8544ce2a650ac03d3527c152d7f93670ddb808876d57e496cab844"

def firstStartId : String := "bfd3a6a802e6fc7c3f16fc28edd07a36fed406d18d69c162db2c9f7de4abf28c"

/-- The rest of an emission, and of a restart, once the event is known. -/
def record (n : Node) (event : Event) (ts now : ℚ) : Call Bool :=
  let clock := n.vectorClock
  let n := { n with anchors := n.anchorIds }
  match n.persistEnvelope ⟨event, [⟨some n.config.nodeId, some (.fin ts)⟩]⟩ (.fin now) with
  | ⟨n, .error err⟩ => ⟨n, .error err⟩
  | ⟨n, .ok stored⟩ =>
    match n.recomputeConsensus with
    | ⟨n, .error err⟩ => ⟨{ n with vectorClock := clock }, .error err⟩
    | ⟨n, .ok ()⟩ => ⟨n, .ok stored⟩

def reopen (n : Node) (event : Event) (ts now : Flt) : Call Unit :=
  let n := { n with vectorClock := [], anchors := [] }
  if n.storage.events.isEmpty then
    match n.storage.storeEnvelope ⟨event, [⟨some n.config.nodeId, some ts⟩]⟩ (some ts) now with
    | .error err => ⟨n, .error err⟩
    | .ok (storage, _) => ⟨{ n with storage := storage, anchors := [event.id] }, .ok ()⟩
  else ⟨{ n with anchors := n.anchorIds }, .ok ()⟩

section Spelled
variable {n : Node} {x : String}

theorem emitService_record {cls : EventClass} {host : Host} {kind : ServiceKind}
    {details : List (String × Json)} {m : Moment}
    (h : (n.nextEvent cls (n.servicePayload host kind details) (.fin m.ts) m.pick).id = x) :
    n.emitService cls host kind details m =
      record n { n.nextEvent cls (n.servicePayload host kind details) (.fin m.ts) m.pick with id := x }
        m.ts m.now := by
  subst h
  rfl

theorem restart_reopen {identity : List (String × Json)} {ts : Flt} (h : (n.genesisEvent identity ts).id = x)
    (now : Flt) : n.restart identity ts now = reopen n { n.genesisEvent identity ts with id := x } ts now := by
  subst h
  rfl

end Spelled

def genesis : Event :=
  { retaining.node.genesisEvent (retaining.node.selfIdentity retaining.host) (.fin 0) with id := genesisId }

theorem genesis_id :
    (retaining.node.genesisEvent (retaining.node.selfIdentity retaining.host) (.fin 0)).id = genesisId :=
  (Chain.computeEventId_chars _ _).trans (by decide +kernel)

/-- The node after its first start, before the announcement. -/
def booted : Node := (reopen retaining.node genesis (.fin 0) (.fin 0)).node

theorem retaining_rebooted : retaining.rebooted (.fin 0) (.fin 0) = booted := by
  unfold rebooted
  rw [restart_reopen genesis_id]
  rfl

def announcement (n : Node) (t : ℚ) : Event :=
  n.nextEvent .B (n.servicePayload retaining.host .start [("ts", .float (.fin t))]) (.fin t) 0

theorem booted_announcement : (announcement booted 0).id = firstStartId :=
  (Chain.computeEventId_chars _ _).trans (by decide +kernel)

/-- The first process is under way. -/
def announced : Call Bool := record booted { announcement booted 0 with id := firstStartId } 0 0

theorem booted_start : booted.emitServiceStart retaining.host ⟨0, 0, 0, 0⟩ = announced :=
  emitService_record booted_announcement

theorem booted_clean : booted.unclean = false := by decide +kernel

theorem firstStart_regular : retaining.Regular firstStart := by
  have hchecked := checked_clean (retaining_rebooted.symm ▸ booted_clean) ⟨0, 0, 0, 0⟩
  refine ⟨rfl, ⟨le_rfl, le_rfl, le_rfl⟩, ⟨le_rfl, le_rfl, le_rfl⟩, fun h => ?_, ?_⟩
  · rw [retaining_rebooted, booted_clean] at h
    cases h
  · rw [hchecked, retaining_rebooted]
    dsimp only
    rw [booted_start]
    decide +kernel

theorem retaining_firstStart : retaining.step firstStart =
    { retaining with node := announced.node, state := .running firstStartId } := by
  have hchecked := checked_clean (retaining_rebooted.symm ▸ booted_clean) ⟨0, 0, 0, 0⟩
  unfold firstStart step
  dsimp only
  rw [hchecked, retaining_rebooted]
  dsimp only
  rw [booted_start]
  have hid : (announcement booted 0).id = firstStartId := booted_announcement
  unfold announcement at hid
  rw [hid]
  rfl

/-- A month later: the first events are covered by a confirmed checkpoint, and
a retention pass deletes them. -/
def month : ℚ := 2700000

def covering : Dict Int CheckpointRow := [(1, ⟨"", "", [], .confirmed, none, .fin 1⟩)]

def emptied : Node := ((announced.node.withCheckpoints covering).runRetentionOnce (.fin month)).node

def laterStart : ServiceAct := .start (.fin 0) (.fin month) ⟨month, month, month, 0⟩ ⟨month, month, month, 0⟩

def longRun : List ServiceAct := [firstStart, .checkpoint covering, .retain (.fin month), .kill, laterStart]

def killedUnseen : Service := { retaining with node := emptied, state := .killed }

theorem longRun_killed : run step retaining [firstStart, .checkpoint covering, .retain (.fin month), .kill] =
    killedUnseen := by
  simp only [run, List.foldl_cons, List.foldl_nil]
  rw [retaining_firstStart]
  rfl

def reborn : Node := (reopen emptied genesis (.fin 0) (.fin month)).node

theorem booted_config : booted.config = retaining.node.config := by
  rw [← retaining_rebooted]
  exact (restart_serviceLog retaining.host (.fin 0) (.fin 0)).2

theorem emptied_config : emptied.config = retaining.node.config := by
  have hannounced : announced.node.config = booted.config := by
    rw [← booted_start, Node.emitServiceStart, emitService_config]
  exact (Node.runRetentionOnce_same _ _).config.trans (hannounced.trans booted_config)

theorem killedUnseen_rebooted : killedUnseen.rebooted (.fin 0) (.fin month) = reborn := by
  have hgenesis : emptied.genesisEvent (emptied.selfIdentity retaining.host) (.fin 0) =
      retaining.node.genesisEvent (retaining.node.selfIdentity retaining.host) (.fin 0) := by
    unfold Node.genesisEvent Node.selfIdentity Node.hostName
    rw [emptied_config]
  have hrestart := restart_reopen ((congrArg Event.id hgenesis).trans genesis_id) (.fin month)
  unfold rebooted
  change (emptied.restart (emptied.selfIdentity retaining.host) (.fin 0) (.fin month)).node = reborn
  rw [hrestart, hgenesis]
  rfl

theorem reborn_clean : reborn.unclean = false := by decide +kernel

def laterStartId : String := "90c35e42b4a331b422eb399fcc1171bb51b84f182855a142ecb680d36004c7e3"

theorem reborn_announcement : (announcement reborn month).id = laterStartId :=
  (Chain.computeEventId_chars _ _).trans (by decide +kernel)

theorem reborn_start : (reborn.emitServiceStart retaining.host ⟨month, month, month, 0⟩).succeeded = true := by
  have hrecord : reborn.emitServiceStart retaining.host ⟨month, month, month, 0⟩ =
      record reborn { announcement reborn month with id := laterStartId } month month :=
    emitService_record reborn_announcement
  rw [hrecord]
  decide +kernel

theorem laterStart_regular : killedUnseen.Regular laterStart := by
  have hchecked := checked_clean (killedUnseen_rebooted.symm ▸ reborn_clean) ⟨month, month, month, 0⟩
  refine ⟨rfl, ⟨by decide, le_rfl, le_rfl⟩, ⟨le_rfl, le_rfl, le_rfl⟩, fun h => ?_, ?_⟩
  · rw [killedUnseen_rebooted, reborn_clean] at h
    cases h
  · rw [hchecked, killedUnseen_rebooted]
    exact reborn_start

theorem longRun_regular : Admits step Regular retaining longRun := by
  refine ⟨firstStart_regular, ?_⟩
  rw [retaining_firstStart]
  exact ⟨rfl, rfl, rfl, laterStart_regular, trivial⟩

/-- The start of a long process is deleted before it is killed, and the next
process does not notice. -/
theorem killed_unnoticed : ¬ ∀ (config : NodeConfig) (membership : Membership) (host : Host) (time : ℚ)
    (acts : List ServiceAct), Admits step Regular (fresh config membership host time) acts →
    ∀ (pre : List ServiceAct) (genesisTs boot : Flt) (killed started : Moment),
      pre ++ [.start genesisTs boot killed started] <+: acts →
      ((run step (fresh config membership host time)
        (pre ++ [.start genesisTs boot killed started])).alarm = true ↔
          (run step (fresh config membership host time) pre).state = .killed) := by
  intro h
  have hlast := h _ _ _ _ longRun longRun_regular
    [firstStart, .checkpoint covering, .retain (.fin month), .kill] _ _ _ _ (List.prefix_refl _)
  change (run step retaining (_ ++ [laterStart])).alarm = true ↔ (run step retaining _).state = .killed at hlast
  rw [run_concat, longRun_killed] at hlast
  have halarm := hlast.2 rfl
  unfold laterStart step at halarm
  dsimp only at halarm
  rw [checked_clean (killedUnseen_rebooted.symm ▸ reborn_clean)] at halarm
  cases halarm

/-! ### A kill that is noticed -/

def soonStart : ServiceAct := .start (.fin 0) (.fin 1) ⟨1, 1, 1, 0⟩ ⟨1, 1, 1, 0⟩

def killedSeen : Service := { retaining with node := announced.node, state := .killed }

def revived : Node := killedSeen.rebooted (.fin 0) (.fin 1)

def killedDetails : List (String × Json) :=
  [("previous_start_id", .str firstStartId), ("previous_start_ts", .float (.fin 0)),
    ("detected_at", .float (.fin 1))]

theorem revived_unclean : revived.unclean = true := by decide +kernel

theorem killedSeen_checked : killedSeen.checked (.fin 0) (.fin 1) ⟨1, 1, 1, 0⟩ =
    revived.emitService .A retaining.host .killed killedDetails ⟨1, 1, 1, 0⟩ := by
  have hlast : revived.lastOwnServiceEvent.map (fun e => (e.id, e.tsLocal)) =
      some (firstStartId, .fin 0) := by decide +kernel
  obtain ⟨last, hlast, hfields⟩ := Option.map_eq_some_iff.1 hlast
  obtain ⟨hid, hts⟩ := Prod.mk.inj hfields
  have hstart := revived_unclean
  unfold Node.unclean at hstart
  rw [hlast] at hstart
  have hchecked : killedSeen.checked (.fin 0) (.fin 1) ⟨1, 1, 1, 0⟩ =
    revived.maybeEmitServiceKilled retaining.host ⟨1, 1, 1, 0⟩ := rfl
  rw [hchecked, Node.maybeEmitServiceKilled, hlast]
  dsimp only
  rw [if_pos (of_decide_eq_true hstart), hid, hts]
  rfl

def killedId : String := "2d3393677cadb36b2341281c5516370c4ecf8451315e4f8f4208b832342f7804"

def killedEvent : Event :=
  revived.nextEvent .A (revived.servicePayload retaining.host .killed killedDetails) (.fin 1) 0

theorem killedEvent_id : killedEvent.id = killedId :=
  (Chain.computeEventId_chars _ _).trans (by decide +kernel)

def alarmed : Call Bool := record revived { killedEvent with id := killedId } 1 1

theorem revived_killed : revived.emitService .A retaining.host .killed killedDetails ⟨1, 1, 1, 0⟩ = alarmed :=
  emitService_record killedEvent_id

def soonStartId : String := "dbf0907c0d7b0b1088b2f55fffb94a4ea3d6a5a12157633538ffce7d48888383"

theorem alarmed_announcement : (announcement alarmed.node 1).id = soonStartId :=
  (Chain.computeEventId_chars _ _).trans (by decide +kernel)

theorem soonStart_regular : killedSeen.Regular soonStart := by
  have hrecord : alarmed.node.emitServiceStart retaining.host ⟨1, 1, 1, 0⟩ =
      record alarmed.node { announcement alarmed.node 1 with id := soonStartId } 1 1 :=
    emitService_record alarmed_announcement
  refine ⟨rfl, ⟨by decide, le_rfl, le_rfl⟩, ⟨le_rfl, le_rfl, le_rfl⟩, fun _ => ?_, ?_⟩
  · rw [killedSeen_checked, revived_killed]
    decide +kernel
  · rw [killedSeen_checked, revived_killed]
    change (alarmed.node.emitServiceStart retaining.host ⟨1, 1, 1, 0⟩).succeeded = true
    rw [hrecord]
    decide +kernel

theorem announced_stored : ∃ x ∈ announced.node.serviceLog, x.id = firstStartId := by
  have hany : (announced.node.serviceLog.any fun x => x.id = firstStartId) = true := by decide +kernel
  obtain ⟨x, hx, hid⟩ := List.any_eq_true.1 hany
  exact ⟨x, hx, of_decide_eq_true hid⟩

theorem kill_noticed : (run step retaining [firstStart, .kill, soonStart]).alarm = true := by
  have hkilled : run step retaining [firstStart, .kill] = killedSeen := by
    simp only [run, List.foldl_cons, List.foldl_nil]
    rw [retaining_firstStart]
    rfl
  refine (kill_detection_exact _ _ _ _ [firstStart, .kill, soonStart] (by decide) ?_ [firstStart, .kill] _ _ _ _
    (List.prefix_refl _)).2 (congrArg Service.state hkilled)
  refine ⟨⟨firstStart_regular, trivial⟩, ?_⟩
  change Admits step _ (step retaining firstStart) _
  rw [retaining_firstStart]
  refine ⟨⟨rfl, fun startId h => ?_⟩, ⟨soonStart_regular, trivial⟩, trivial⟩
  obtain rfl := ProcessState.running.inj h
  exact announced_stored

end Service
end Mdrj.L4
