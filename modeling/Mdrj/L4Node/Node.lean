import Mdrj.L3Store.Writes

/-!
# The node

The operations of `Node` that touch the graph: ingesting envelopes, emitting
an event, recomputing consensus, the finalized snapshot and a retention
pass. An operation that raises keeps what it had already written, so it
returns the node with an `Except`. Clock readings and the random choice of a
parent are arguments; recomputation is synchronous
(`runtime.recompute_debounce_sec` at its default of zero).

Left out here: gossip, notification, metrics and the archive file, which do not
write to the tables.
-/
namespace Mdrj.L4
open Mdrj.Core Mdrj.L1 Mdrj.L2 Mdrj.L3

/-- mirrors mdrj/config.py:69-81 -/
structure RetentionConfig where
  enabled : Bool := false
  maxAgeDays : Int := 30
  keepClassA : Bool := true
  archivePath : Option String := none

structure NodeConfig where
  nodeId : String
  hmacKey : String := ""   -- `security.hmac_key`; empty when unset
  retention : RetentionConfig := {}

/-- The active membership snapshot. -/
structure Membership where
  members : List MembershipEntry
  snapshotHash : String

structure Node where
  config : NodeConfig
  membership : Membership
  storage : DAGStorage := {}
  vectorClock : Dict String Int := []
  anchors : List String := []

/-- A call: the node it leaves behind and what it returns or raises. -/
structure Call (α : Type) where
  node : Node
  result : Except PyError α

/-! ## Vector clocks -/

/-- mirrors mdrj/vectorclock.py:28-32 -/
def mergeClock (clock other : Dict String Int) : Dict String Int :=
  other.foldl (fun merged p => Dict.set merged p.1 (max ((Dict.get merged p.1).getD 0) p.2)) clock

/-- mirrors mdrj/vectorclock.py:23-26 -/
def incrementClock (clock : Dict String Int) (nodeId : String) : Dict String Int :=
  Dict.set clock nodeId ((Dict.get clock nodeId).getD 0 + 1)

namespace Node

/-! ## Consensus -/

def engine (n : Node) : ConsensusEngine := ⟨n.config.nodeId⟩

/-- mirrors mdrj/node.py:703-712 -/
def membershipEntries (n : Node) : List MembershipEntry :=
  n.membership.members.filterMap fun m =>
    if strip m.nodeId = "" then none else some { m with nodeId := strip m.nodeId }

/-- mirrors mdrj/node.py:694-701 -/
def pathMetaByEvent (n : Node) : Dict String (List Hop) :=
  n.storage.allEvents.foldl (fun d event =>
    Dict.set d event.id (((n.storage.getEnvelope event.id).map Envelope.pathMeta).getD [])) []

/-- The events in topological order.
mirrors mdrj/node.py:724-725 -/
def orderedEvents (n : Node) (orderIds : List String) : List Event :=
  orderIds.filterMap (Dict.get (indexById n.storage.allEvents))

/-- A cycle found by `toposort` is raised to the caller; a failure inside the
engine is logged and leaves the columns as they are.
mirrors mdrj/node.py:690-758 -/
def recomputeConsensus (n : Node) : Call Unit :=
  if n.storage.allEvents.isEmpty then ⟨n, .ok ()⟩
  else
    match n.storage.toposort with
    | .error err => ⟨n, .error err⟩
    | .ok orderIds =>
      match n.engine.recompute (n.orderedEvents orderIds) n.membershipEntries n.pathMetaByEvent with
      | none => ⟨n, .ok ()⟩
      | some states => ⟨{ n with storage := n.storage.replaceConsensusState states }, .ok ()⟩

theorem recomputeConsensus_eq {n : Node} {orderIds : List String} {states : List ConsensusState}
    (hne : n.storage.allEvents ≠ []) (hsort : n.storage.toposort = .ok orderIds)
    (hrun : n.engine.recompute (n.orderedEvents orderIds) n.membershipEntries n.pathMetaByEvent =
      some states) :
    n.recomputeConsensus = ⟨{ n with storage := n.storage.replaceConsensusState states }, .ok ()⟩ := by
  unfold recomputeConsensus
  rw [if_neg (by simpa using hne), hsort]
  dsimp only
  rw [hrun]

/-- A recompute writes some states, or none, and nothing else. -/
theorem recomputeConsensus_node (n : Node) : ∃ states,
    n.recomputeConsensus.node = { n with storage := n.storage.replaceConsensusState states } := by
  unfold recomputeConsensus
  split
  · exact ⟨[], rfl⟩
  · split
    · exact ⟨[], rfl⟩
    · split
      · exact ⟨[], rfl⟩
      · rename_i states _
        exact ⟨states, rfl⟩

/-- mirrors mdrj/node.py:2135 -/
def consensusFinalityMargin : Int := 2

/-- The finalized ids: all but the last rounds, in `total_order`.
mirrors mdrj/node.py:2137-2152 -/
def finalizedIds (events : List Event) : List String :=
  let ordered := totalOrder events []
  match (ordered.filterMap Event.roundReceived).max? with
  | none => []
  | some newest =>
    let cutoff := newest - consensusFinalityMargin
    (ordered.filter fun e => match e.roundReceived with
      | none => false
      | some rr => rr ≤ cutoff).map Event.id

/-! ## Ingest -/

/-- mirrors mdrj/node.py:894-913 without recompute -/
def persistEnvelope (n : Node) (envelope : Envelope) (now : Flt) : Call Bool :=
  match n.storage.storeEnvelope envelope envelope.event.consensusTs now with
  | .error err => ⟨n, .error err⟩
  | .ok (storage, stored) =>
    ⟨{ n with storage := storage, vectorClock := mergeClock n.vectorClock envelope.event.vclock },
      .ok stored⟩

/-- The loop of `ingest_envelopes`; each envelope comes with the clock
reading of its insertion. -/
def ingestLoop : Node → List String → List (Envelope × Flt) → Call (List String)
  | n, newIds, [] => ⟨n, .ok newIds⟩
  | n, newIds, (envelope, now) :: rest =>
    match n.persistEnvelope envelope now with
    | ⟨n, .error err⟩ => ⟨n, .error err⟩
    | ⟨n, .ok stored⟩ =>
      ingestLoop n (if stored then newIds ++ [envelope.event.id] else newIds) rest

/-- mirrors mdrj/node.py:915-930 -/
def ingestEnvelopes (n : Node) (envelopes : List (Envelope × Flt)) : Call (List String) :=
  match ingestLoop n [] envelopes with
  | ⟨n, .error err⟩ => ⟨n, .error err⟩
  | ⟨n, .ok newIds⟩ =>
    if newIds.isEmpty then ⟨n, .ok newIds⟩
    else
      match n.recomputeConsensus with
      | ⟨n, .error err⟩ => ⟨n, .error err⟩
      | ⟨n, .ok ()⟩ => ⟨n, .ok newIds⟩

/-! ## Emit -/

/-- `isinstance(payload, dict) and payload.get("genesis")`. -/
def isGenesis (event : Event) : Bool :=
  match event.payload with
  | .obj fields => match Dict.get fields "genesis" with
    | some v => v.truthy
    | none => false
  | _ => false

/-- mirrors mdrj/node.py:1005-1020 -/
def anchorIds (n : Node) : List String :=
  if n.anchors ≠ [] then n.anchors
  else
    let events := n.storage.listEvents 20
    let anchors := events.foldl (fun anchors event =>
      if isGenesis event ∧ event.id ∉ anchors then anchors ++ [event.id] else anchors) []
    if anchors = [] then (events.take 1).map Event.id else anchors

/-- The parents of the next event; `pick` is the draw of `random.choice`.
mirrors mdrj/node.py:808-828 -/
def emitParents (n : Node) (pick : Nat) : List String :=
  let parents := ((n.storage.latestEventBySource n.config.nodeId).map Event.id).toList
  let others := (n.storage.listRecentEvents.filter fun event =>
    decide (event.source ≠ n.config.nodeId ∧ event.id ∉ parents)).map Event.id
  let parents := parents ++ (if others.isEmpty then none else others[pick % others.length]?).toList
  let parents := n.anchorIds.foldl (fun parents anchor =>
    if 2 ≤ parents.length ∨ anchor ∈ parents then parents else parents ++ [anchor]) parents
  parents.take 2

/-- mirrors mdrj/node.py:829-847 -/
def nextEvent (n : Node) (cls : EventClass) (payload : Json) (ts : Flt) (pick : Nat) : Event :=
  let parents := n.emitParents pick
  let merged := parents.foldl (fun clock parentId =>
    match n.storage.getEvent parentId with
    | some parent => mergeClock clock parent.vclock
    | none => clock) n.vectorClock
  let clock := incrementClock merged n.config.nodeId
  let sig := if n.config.hmacKey = "" then none
    else some (Sha256.hmac (Sha256.encode n.config.hmacKey) (Sha256.encode (canonicalJson payload)))
  Event.create cls n.config.nodeId ts clock parents payload sig (some n.config.nodeId)
    parents[0]? parents[1]?

/-- mirrors mdrj/node.py:804-864 up to the broadcast -/
def emitEvent (n : Node) (cls : EventClass) (payload : Json) (ts now : Flt) (pick : Nat) :
    Call Bool :=
  let event := n.nextEvent cls payload ts pick
  let clock := n.vectorClock
  let n := { n with anchors := n.anchorIds }
  match n.persistEnvelope ⟨event, [⟨some n.config.nodeId, some ts⟩]⟩ now with
  | ⟨n, .error err⟩ => ⟨n, .error err⟩
  | ⟨n, .ok stored⟩ =>
    match n.recomputeConsensus with
    -- the clock is merged after the recompute, if that returns
    | ⟨n, .error err⟩ => ⟨{ n with vectorClock := clock }, .error err⟩
    | ⟨n, .ok ()⟩ => ⟨n, .ok stored⟩

/-! ## Retention -/

/-- The age below which events are kept; `none` when the configured number of
days is beyond the floats.
mirrors mdrj/node.py:1905 -/
def maxAgeSec (cfg : RetentionConfig) : Option Flt :=
  (Flt.ofInt cfg.maxAgeDays).map fun days => days.days.clamp0

/-- mirrors mdrj/node.py:1897-1918 -/
def runRetentionOnce (n : Node) (now : Flt) : Call (List EventRow) :=
  let cfg := n.config.retention
  if !cfg.enabled then ⟨n, .ok []⟩
  else
    match n.storage.latestConfirmedCheckpoint with
    | none => ⟨n, .ok []⟩
    | some (confirmedRound, _) =>
      match maxAgeSec cfg with
      | none => ⟨n, .error .overflowError⟩
      | some maxAge =>
        let (storage, pruned) :=
          n.storage.pruneUnderCheckpoint confirmedRound maxAge cfg.keepClassA now
        ⟨{ n with storage := storage }, .ok pruned⟩

/-! ## What every write of a call keeps -/

section Kept
variable {P : Node → Prop} {Q : Envelope × Flt → Prop}

/-- What storing an envelope keeps, the loop over a batch keeps. -/
theorem ingestLoop_ind (hpersist : ∀ n p, Q p → P n → P (n.persistEnvelope p.1 p.2).node)
    (envelopes : List (Envelope × Flt)) : ∀ (n : Node) (newIds : List String), (∀ p ∈ envelopes, Q p) →
      P n → P (ingestLoop n newIds envelopes).node := by
  induction envelopes with
  | nil => intro n newIds _ h; exact h
  | cons p rest ih =>
    intro n newIds hQ h
    rw [List.forall_mem_cons] at hQ
    have hp := hpersist n p hQ.1 h
    unfold ingestLoop
    split
    · rename_i n' err hn; rw [hn] at hp; exact hp
    · rename_i n' stored hn; rw [hn] at hp; exact ih _ _ hQ.2 hp

/-- After its loop, a batch recomputes at most. -/
theorem ingestEnvelopes_of_loop (hrecompute : ∀ n, P n → P n.recomputeConsensus.node) {n : Node}
    {envelopes : List (Envelope × Flt)} (h : P (ingestLoop n [] envelopes).node) :
    P (n.ingestEnvelopes envelopes).node := by
  unfold ingestEnvelopes
  split
  · rename_i n' err hn; rw [hn] at h; exact h
  · rename_i n' newIds hn
    rw [hn] at h
    split
    · exact h
    · have hr := hrecompute n' h
      split <;> (rename_i hn'; rw [hn'] at hr; exact hr)

theorem ingestEnvelopes_ind (hpersist : ∀ n p, Q p → P n → P (n.persistEnvelope p.1 p.2).node)
    (hrecompute : ∀ n, P n → P n.recomputeConsensus.node) {n : Node} {envelopes : List (Envelope × Flt)}
    (hQ : ∀ p ∈ envelopes, Q p) (h : P n) : P (n.ingestEnvelopes envelopes).node :=
  ingestEnvelopes_of_loop hrecompute (ingestLoop_ind hpersist envelopes n [] hQ h)

/-- After its event was handed to the store, an emission recomputes at most,
and may keep its old clock. -/
theorem emitEvent_of_persist (hrecompute : ∀ n, P n → P n.recomputeConsensus.node) {n : Node}
    (hclock : ∀ n', P n' → P { n' with vectorClock := n.vectorClock })
    {cls : EventClass} {payload : Json} {ts now : Flt} {pick : Nat}
    (h : P (({ n with anchors := n.anchorIds } : Node).persistEnvelope
      ⟨n.nextEvent cls payload ts pick, [⟨some n.config.nodeId, some ts⟩]⟩ now).node) :
    P (n.emitEvent cls payload ts now pick).node := by
  unfold emitEvent
  dsimp only
  split
  · rename_i n' err hn; rw [hn] at h; exact h
  · rename_i n' stored hn
    rw [hn] at h
    have hr := hrecompute n' h
    split
    · rename_i n'' err hn'; rw [hn'] at hr; exact hclock n'' hr
    · rename_i n'' hn'; rw [hn'] at hr; exact hr

end Kept

/-- A pass does nothing, fails, or prunes. -/
theorem runRetentionOnce_cases (n : Node) (now : Flt) :
    n.runRetentionOnce now = ⟨n, .ok []⟩ ∨ n.runRetentionOnce now = ⟨n, .error .overflowError⟩ ∨
      ∃ confirmedRound maxAge, n.runRetentionOnce now =
        ⟨{ n with storage := (n.storage.pruneUnderCheckpoint confirmedRound maxAge
            n.config.retention.keepClassA now).1 },
          .ok (n.storage.pruneUnderCheckpoint confirmedRound maxAge
            n.config.retention.keepClassA now).2⟩ := by
  unfold runRetentionOnce
  dsimp only
  split
  · exact .inl rfl
  · split
    · exact .inl rfl
    · split
      · exact .inr (.inl rfl)
      · exact .inr (.inr ⟨_, _, rfl⟩)

/-! ## What the operations on the graph leave alone -/

/-- The same configuration and membership, and the same checkpoints. -/
structure SameCheckpoints (n n' : Node) : Prop where
  config : n'.config = n.config
  membership : n'.membership = n.membership
  checkpoints : n'.storage.checkpoints = n.storage.checkpoints

theorem SameCheckpoints.refl (n : Node) : SameCheckpoints n n := ⟨rfl, rfl, rfl⟩

theorem SameCheckpoints.trans {n n' n'' : Node} (h : SameCheckpoints n n')
    (h' : SameCheckpoints n' n'') : SameCheckpoints n n'' :=
  ⟨h'.config.trans h.config, h'.membership.trans h.membership, h'.checkpoints.trans h.checkpoints⟩

theorem replaceConsensusState_checkpoints (s : DAGStorage) (states : List ConsensusState) :
    (s.replaceConsensusState states).checkpoints = s.checkpoints := by
  rw [DAGStorage.replaceConsensusState_eq]

theorem recomputeConsensus_same (n : Node) : SameCheckpoints n n.recomputeConsensus.node := by
  obtain ⟨states, hnode⟩ := n.recomputeConsensus_node
  rw [hnode]
  exact ⟨rfl, rfl, replaceConsensusState_checkpoints n.storage states⟩

theorem storeEnvelope_checkpoints {s s' : DAGStorage} {envelope : Envelope} {ts : Option Flt}
    {now : Flt} {stored : Bool} (h : s.storeEnvelope envelope ts now = .ok (s', stored)) :
    s'.checkpoints = s.checkpoints := by
  unfold DAGStorage.storeEnvelope at h
  dsimp only at h
  split at h
  · obtain ⟨rfl, -⟩ := Prod.mk.inj (Except.ok.inj h)
    split <;> rfl
  · split at h
    · cases h
    · obtain ⟨rfl, -⟩ := Prod.mk.inj (Except.ok.inj h)
      rfl

theorem persistEnvelope_same (n : Node) (envelope : Envelope) (now : Flt) :
    SameCheckpoints n (n.persistEnvelope envelope now).node := by
  unfold persistEnvelope
  split
  · exact .refl n
  · rename_i storage stored hs
    exact ⟨rfl, rfl, storeEnvelope_checkpoints hs⟩

theorem ingestEnvelopes_same (n : Node) (envelopes : List (Envelope × Flt)) :
    SameCheckpoints n (n.ingestEnvelopes envelopes).node :=
  ingestEnvelopes_ind (P := SameCheckpoints n) (Q := fun _ => True)
    (fun n' p _ h => h.trans (persistEnvelope_same n' p.1 p.2))
    (fun n' h => h.trans (recomputeConsensus_same n')) (fun _ _ => trivial) (.refl n)

theorem emitEvent_same (n : Node) (cls : EventClass) (payload : Json) (ts now : Flt) (pick : Nat) :
    SameCheckpoints n (n.emitEvent cls payload ts now pick).node := by
  have ha : SameCheckpoints n { n with anchors := n.anchorIds } := ⟨rfl, rfl, rfl⟩
  exact emitEvent_of_persist (P := SameCheckpoints n) (fun n' h => h.trans (recomputeConsensus_same n'))
    (fun _ h => ⟨h.config, h.membership, h.checkpoints⟩) (ha.trans (persistEnvelope_same _ _ now))

theorem runRetentionOnce_same (n : Node) (now : Flt) :
    SameCheckpoints n (n.runRetentionOnce now).node := by
  rcases n.runRetentionOnce_cases now with heq | heq | ⟨confirmedRound, maxAge, heq⟩
  · rw [heq]; exact .refl n
  · rw [heq]; exact .refl n
  · rw [heq]; exact ⟨rfl, rfl, rfl⟩

/-! ## What ingest does not read -/

/-- The node with another checkpoints table. -/
def withCheckpoints (n : Node) (table : Dict Int CheckpointRow) : Node :=
  { n with storage := { n.storage with checkpoints := table } }

section WithCheckpoints
variable (n : Node) (table : Dict Int CheckpointRow)

theorem replaceConsensusState_with (s : DAGStorage) (states : List ConsensusState) :
    ({ s with checkpoints := table } : DAGStorage).replaceConsensusState states =
      { s.replaceConsensusState states with checkpoints := table } := by
  rw [DAGStorage.replaceConsensusState_eq, DAGStorage.replaceConsensusState_eq]

theorem recomputeConsensus_with : (n.withCheckpoints table).recomputeConsensus =
    ⟨n.recomputeConsensus.node.withCheckpoints table, n.recomputeConsensus.result⟩ := by
  have hall : (n.withCheckpoints table).storage.allEvents = n.storage.allEvents := rfl
  have hsort : (n.withCheckpoints table).storage.toposort = n.storage.toposort := rfl
  unfold recomputeConsensus
  rw [hall, hsort]
  by_cases hempty : n.storage.allEvents.isEmpty = true
  · rw [if_pos hempty, if_pos hempty]
  · rw [if_neg hempty, if_neg hempty]
    cases n.storage.toposort with
    | error err => rfl
    | ok orderIds =>
      dsimp only
      change (match n.engine.recompute (n.orderedEvents orderIds) n.membershipEntries
        n.pathMetaByEvent with | none => _ | some states => _) = _
      cases n.engine.recompute (n.orderedEvents orderIds) n.membershipEntries n.pathMetaByEvent with
      | none => rfl
      | some states =>
        dsimp only
        unfold withCheckpoints
        rw [replaceConsensusState_with]

theorem persistEnvelope_with (envelope : Envelope) (now : Flt) :
    (n.withCheckpoints table).persistEnvelope envelope now =
      ⟨(n.persistEnvelope envelope now).node.withCheckpoints table,
        (n.persistEnvelope envelope now).result⟩ := by
  unfold persistEnvelope DAGStorage.storeEnvelope
  dsimp only
  have hids : (n.withCheckpoints table).storage.ids = n.storage.ids := rfl
  rw [hids]
  by_cases hid : envelope.event.id ∈ n.storage.ids
  · rw [if_pos hid, if_pos hid]
    cases envelope.event.consensusTs <;> rfl
  · rw [if_neg hid, if_neg hid]
    cases DAGStorage.insertError envelope.event <;> rfl

theorem ingestLoop_with (envelopes : List (Envelope × Flt)) :
    ∀ (n : Node) (newIds : List String), ingestLoop (n.withCheckpoints table) newIds envelopes =
      ⟨(ingestLoop n newIds envelopes).node.withCheckpoints table,
        (ingestLoop n newIds envelopes).result⟩ := by
  induction envelopes with
  | nil => intro n newIds; rfl
  | cons p rest ih =>
    intro n newIds
    unfold ingestLoop
    rw [persistEnvelope_with]
    cases hp : n.persistEnvelope p.1 p.2 with
    | mk n' result =>
      cases result with
      | error err => rfl
      | ok stored => exact ih _ _

theorem ingestEnvelopes_with (envelopes : List (Envelope × Flt)) :
    (n.withCheckpoints table).ingestEnvelopes envelopes =
      ⟨(n.ingestEnvelopes envelopes).node.withCheckpoints table,
        (n.ingestEnvelopes envelopes).result⟩ := by
  unfold ingestEnvelopes
  rw [ingestLoop_with]
  cases ingestLoop n [] envelopes with
  | mk n' result =>
    cases result with
    | error err => rfl
    | ok newIds =>
      dsimp only
      by_cases hnew : newIds.isEmpty = true
      · rw [if_pos hnew, if_pos hnew]
      · rw [if_neg hnew, if_neg hnew, recomputeConsensus_with]
        cases n'.recomputeConsensus with
        | mk n'' result => cases result <;> rfl

end WithCheckpoints
end Node
end Mdrj.L4
