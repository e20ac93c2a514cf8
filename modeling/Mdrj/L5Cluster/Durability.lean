import Mathlib.Data.Rat.Floor
import Mdrj.Core.Runs
import Mdrj.L4Node.Node

/-!
# Durable events

An event of class A is sent to all active peers, and `emit_event` answers
"durable" once enough of them have acknowledged it in one attempt. How many
are enough is fixed by the number of peers at the start; each retry asks the
peers of its own time and starts counting anew.

The network keeps every request and every answer it has been given, so each
may arrive late, more than once or never. An address stands for the node
that answers there; whatever that node does besides, it forgets no event.

Results:
* `durable_is_stored`: in every state of every run, an event called durable
  is stored at the required number of distinct addresses.

Left out: the sends of a broadcast with the quorum switched off, and the event
of class B that reports a failed broadcast, which is another emission.
-/
namespace Mdrj.L5
open Mdrj.Core Mdrj.L1 Mdrj.L3 Mdrj.L4

inductive Durability where
  | durable | localOnly | bestEffort
  deriving DecidableEq, Repr

/-- One request of one attempt of a broadcast. -/
structure Message where
  task : Nat
  attempt : Nat
  address : String
  deriving DecidableEq

/-- A call of `_broadcast_with_quorum_ack`. -/
structure Broadcast where
  eventId : String
  envelope : Option Envelope := none
  /-- ghost: the peers active at the start -/
  peersTotal : Nat
  required : Nat
  retriesLeft : Nat
  attempt : Nat := 0
  waiting : Bool := false          -- for the backoff after an attempt
  acked : Finset String := ∅       -- of the attempt under way
  result : Option Durability := none

/-- `runtime.class_a_fanout_quorum_ratio` and `class_a_fanout_max_retries`. -/
structure FanoutConfig where
  ratio : ℚ
  maxRetries : Int

structure Network where
  node : Node
  active : Finset String             -- the addresses of `list_peers()`
  peers : String → Node              -- the node that answers at an address
  tasks : Nat → Option Broadcast := fun _ => none
  requests : Finset Message := ∅
  answers : Finset Message := ∅      -- the answers with status 200

/-- mirrors mdrj/node.py:2066 -/
def requiredAcks (ratio : ℚ) (peers : Nat) : Nat := max 1 ⌈ratio * peers⌉₊

/-- mirrors mdrj/api.py:7139-7148 -/
def handleEventBatch (n : Node) (envelopes : List (Envelope × Flt)) : Call (List String) :=
  n.ingestEnvelopes envelopes

namespace Network

def setTask (s : Network) (task : Nat) (b : Broadcast) : Network :=
  { s with tasks := fun i => if i = task then some b else s.tasks i }

def setPeer (s : Network) (address : String) (n : Node) : Network :=
  { s with peers := fun a => if a = address then n else s.peers a }

/-- An attempt sends to the peers active now.
mirrors mdrj/node.py:2101-2115 -/
def startAttempt (s : Network) (task : Nat) (b : Broadcast) : Network :=
  { s.setTask task { b with acked := ∅, waiting := false } with
    requests := s.requests ∪ s.active.image fun address => ⟨task, b.attempt, address⟩ }

/-- mirrors mdrj/node.py:2043-2071 -/
def startBroadcast (cfg : FanoutConfig) (s : Network) (task : Nat) (eventId : String) : Network :=
  let b : Broadcast :=
    { eventId := eventId, peersTotal := s.active.card
      required := requiredAcks cfg.ratio s.active.card
      retriesLeft := (max 1 cfg.maxRetries).toNat }
  if cfg.ratio ≤ 0 then s.setTask task { b with result := some .bestEffort }
  else if s.active.card = 0 then s.setTask task { b with result := some .localOnly }
  else
    match s.node.storage.getEnvelope eventId with
    | none => s.setTask task { b with result := some .localOnly }
    | some envelope => s.startAttempt task { b with envelope := some envelope }

/-- mirrors mdrj/node.py:804-857 -/
def emit (cfg : FanoutConfig) (s : Network) (task : Nat) (cls : EventClass) (payload : Json)
    (ts now : Flt) (pick : Nat) : Network :=
  match s.node.emitEvent cls payload ts now pick with
  | ⟨node, .error _⟩ => { s with node := node }
  | ⟨node, .ok stored⟩ =>
    if stored ∧ cls = .A then
      startBroadcast cfg { s with node := node } task (s.node.nextEvent cls payload ts pick).id
    else { s with node := node }

/-- A request arrives, and is answered with 200 when the handler returns. -/
def deliver (s : Network) (m : Message) (envelope : Envelope) (now : Flt) : Network :=
  match handleEventBatch (s.peers m.address) [(envelope, now)] with
  | ⟨node, .error _⟩ => s.setPeer m.address node
  | ⟨node, .ok _⟩ => { s.setPeer m.address node with answers := insert m s.answers }

/-- The answers that count: none when the time was up.
mirrors mdrj/node.py:2111-2119 -/
def ackCount (b : Broadcast) (timedOut : Bool) : Nat := if timedOut then 0 else b.acked.card

/-- An attempt is over: all its sends have ended, or the time is up.
mirrors mdrj/node.py:2073-2076 -/
def endAttempt (s : Network) (task : Nat) (b : Broadcast) (timedOut : Bool) : Network :=
  if b.required ≤ ackCount b timedOut then
    s.setTask task { b with result := some .durable }
  else s.setTask task { b with waiting := true }

/-- The backoff is over.
mirrors mdrj/node.py:2072-2085 -/
def nextAttempt (s : Network) (task : Nat) (b : Broadcast) (stopping : Bool) : Network :=
  if stopping ∨ b.retriesLeft ≤ 1 then s.setTask task { b with result := some .localOnly }
  else s.startAttempt task { b with attempt := b.attempt + 1, retriesLeft := b.retriesLeft - 1 }

inductive Act where
  | emit (task : Nat) (cls : EventClass) (payload : Json) (ts now : Flt) (pick : Nat)
  | arrive (m : Message) (now : Flt)
  | ack (m : Message)
  | attemptOver (task : Nat) (timedOut : Bool)
  | backoffOver (task : Nat) (stopping : Bool)
  | peersChange (active : Finset String)
  | elsewhere (node : Node)
  | peerActs (address : String) (node : Node)

/-- What the state does not allow does not happen. -/
def step (cfg : FanoutConfig) (s : Network) : Act → Network
  | .emit task cls payload ts now pick =>
    if (s.tasks task).isSome then s else s.emit cfg task cls payload ts now pick
  | .arrive m now =>
    match (s.tasks m.task).bind Broadcast.envelope with
    | none => s
    | some envelope => if m ∈ s.requests then s.deliver m envelope now else s
  | .ack m =>
    match s.tasks m.task with
    | none => s
    | some b =>
      if m ∈ s.answers ∧ m.attempt = b.attempt ∧ b.waiting = false ∧ b.result = none then
        s.setTask m.task { b with acked := insert m.address b.acked }
      else s
  | .attemptOver task timedOut =>
    match s.tasks task with
    | none => s
    | some b => if b.waiting = false ∧ b.result = none then s.endAttempt task b timedOut else s
  | .backoffOver task stopping =>
    match s.tasks task with
    | none => s
    | some b => if b.waiting = true ∧ b.result = none then s.nextAttempt task b stopping else s
  | .peersChange active => { s with active := active }
  | .elsewhere node => { s with node := node }
  | .peerActs address node =>
    if ∀ id ∈ (s.peers address).storage.ids, id ∈ node.storage.ids then s.setPeer address node else s

/-! ## An acknowledged event is stored -/

end Network

theorem recomputeConsensus_ids (n : Node) : n.recomputeConsensus.node.storage.ids = n.storage.ids := by
  obtain ⟨states, hnode⟩ := n.recomputeConsensus_node
  rw [hnode]
  exact DAGStorage.replaceConsensusState_ids n.storage states

/-- What one envelope of a batch leaves: nothing is forgotten, and it is
stored unless the call raises. -/
theorem ingestLoop_single (n : Node) (envelope : Envelope) (now : Flt) :
    (∀ id ∈ n.storage.ids, id ∈ (Node.ingestLoop n [] [(envelope, now)]).node.storage.ids) ∧
      ∀ newIds, (Node.ingestLoop n [] [(envelope, now)]).result = .ok newIds →
        envelope.event.id ∈ (Node.ingestLoop n [] [(envelope, now)]).node.storage.ids := by
  unfold Node.ingestLoop Node.persistEnvelope
  cases hstore : n.storage.storeEnvelope envelope envelope.event.consensusTs now with
  | error err => exact ⟨fun id hid => hid, fun newIds h => by cases h⟩
  | ok p =>
    obtain ⟨s, stored⟩ := p
    simp only [Node.ingestLoop]
    rcases DAGStorage.storeEnvelope_ids hstore with ⟨hid, -, hids⟩ | ⟨-, -, hids⟩
    · rw [hids]
      exact ⟨fun id h => h, fun _ _ => hid⟩
    · rw [hids]
      exact ⟨fun id h => List.mem_append_left _ h, fun _ _ => List.mem_append_right _ List.mem_cons_self⟩

/-- A batch of one envelope that is answered with 200 is stored. -/
theorem handleEventBatch_spec (n : Node) (envelope : Envelope) (now : Flt) :
    (∀ id ∈ n.storage.ids, id ∈ (handleEventBatch n [(envelope, now)]).node.storage.ids) ∧
      ∀ newIds, (handleEventBatch n [(envelope, now)]).result = .ok newIds →
        envelope.event.id ∈ (handleEventBatch n [(envelope, now)]).node.storage.ids := by
  have hloop := ingestLoop_single n envelope now
  unfold handleEventBatch Node.ingestEnvelopes
  cases hl : Node.ingestLoop n [] [(envelope, now)] with
  | mk n' result =>
    rw [hl] at hloop
    cases result with
    | error err => exact ⟨hloop.1, fun newIds h => by cases h⟩
    | ok newIds =>
      have hids := recomputeConsensus_ids n'
      dsimp only
      split
      · exact ⟨hloop.1, fun _ _ => hloop.2 newIds rfl⟩
      · cases hr : n'.recomputeConsensus with
        | mk n'' result =>
          rw [hr] at hids
          dsimp only at hids
          cases result with
          | error err =>
            dsimp only
            rw [hids]
            exact ⟨hloop.1, fun newIds h => by cases h⟩
          | ok _ =>
            dsimp only
            rw [hids]
            exact ⟨hloop.1, fun _ _ => hloop.2 newIds rfl⟩

namespace Network

def StoredAt (s : Network) (address eventId : String) : Prop := eventId ∈ (s.peers address).storage.ids

/-- What is known of a broadcast. -/
structure Good (cfg : FanoutConfig) (s : Network) (b : Broadcast) : Prop where
  required : b.required = requiredAcks cfg.ratio b.peersTotal
  envelope : ∀ envelope, b.envelope = some envelope → envelope.event.id = b.eventId
  acked : ∀ a ∈ b.acked, s.StoredAt a b.eventId
  durable : b.result = some .durable → b.required ≤ b.acked.card

structure Inv (cfg : FanoutConfig) (s : Network) : Prop where
  tasks : ∀ i b, s.tasks i = some b → Good cfg s b
  answers : ∀ m ∈ s.answers, ∃ b, s.tasks m.task = some b ∧ s.StoredAt m.address b.eventId

variable {cfg : FanoutConfig} {s : Network}

theorem requiredAcks_pos (ratio : ℚ) (peers : Nat) : 0 < requiredAcks ratio peers := by
  unfold requiredAcks
  omega

theorem Good.grow {b : Broadcast} (h : Good cfg s b) {s' : Network}
    (hpeers : ∀ a eventId, s.StoredAt a eventId → s'.StoredAt a eventId) : Good cfg s' b :=
  ⟨h.required, h.envelope, fun a ha => hpeers a _ (h.acked a ha), h.durable⟩

/-- Nodes that forget nothing keep the invariant. -/
theorem Inv.grow (h : Inv cfg s) {s' : Network} (htasks : s'.tasks = s.tasks)
    (hanswers : s'.answers = s.answers)
    (hpeers : ∀ a eventId, s.StoredAt a eventId → s'.StoredAt a eventId) : Inv cfg s' := by
  refine ⟨fun i b hb => ?_, fun m hm => ?_⟩
  · rw [htasks] at hb
    exact (h.tasks i b hb).grow hpeers
  · rw [hanswers] at hm
    obtain ⟨b, hb, hstored⟩ := h.answers m hm
    exact ⟨b, htasks ▸ hb, hpeers _ _ hstored⟩

theorem storedAt_setPeer {address : String} {n : Node}
    (hgrow : ∀ id ∈ (s.peers address).storage.ids, id ∈ n.storage.ids) (a eventId : String)
    (h : s.StoredAt a eventId) : (s.setPeer address n).StoredAt a eventId := by
  unfold StoredAt setPeer at *
  dsimp only
  split
  · rename_i ha
    subst ha
    exact hgrow _ h
  · exact h

/-- A broadcast moves on, and keeps its event. -/
theorem Inv.setTask (h : Inv cfg s) {task : Nat} {b : Broadcast} (hgood : Good cfg s b)
    (hid : ∀ old, s.tasks task = some old → b.eventId = old.eventId) : Inv cfg (s.setTask task b) := by
  refine ⟨fun i b' hb' => ?_, fun m hm => ?_⟩
  · unfold Network.setTask at hb'
    dsimp only at hb'
    split at hb'
    · obtain rfl := Option.some.inj hb'
      exact hgood.grow fun a eventId hs => hs
    · exact (h.tasks i b' hb').grow fun a eventId hs => hs
  · obtain ⟨old, hold, hstored⟩ := h.answers m hm
    by_cases hm : m.task = task
    · refine ⟨b, if_pos hm, ?_⟩
      rw [hid old (hm ▸ hold)]
      exact hstored
    · exact ⟨old, (if_neg hm).trans hold, hstored⟩

/-- A broadcast under way goes on with the same event. -/
theorem Inv.moveOn (h : Inv cfg s) {task : Nat} {b b' : Broadcast} (hb : s.tasks task = some b)
    (hgood : Good cfg s b') (hid : b'.eventId = b.eventId) : Inv cfg (s.setTask task b') := by
  refine h.setTask hgood fun old hold => ?_
  rw [hb, Option.some.injEq] at hold
  rw [hid, hold]

theorem Inv.startAttempt (h : Inv cfg s) {task : Nat} {b : Broadcast}
    (hreq : b.required = requiredAcks cfg.ratio b.peersTotal)
    (henv : ∀ envelope, b.envelope = some envelope → envelope.event.id = b.eventId)
    (hresult : b.result = none) (hid : ∀ old, s.tasks task = some old → b.eventId = old.eventId) :
    Inv cfg (s.startAttempt task b) := by
  have hgood : Good cfg s { b with acked := ∅, waiting := false } := by
    refine ⟨hreq, henv, fun a ha => absurd ha (Finset.notMem_empty a), fun hd => ?_⟩
    rw [hresult] at hd
    cases hd
  exact (h.setTask hgood hid).grow rfl rfl fun a eventId hs => hs

theorem Inv.deliver (h : Inv cfg s) {m : Message} {b : Broadcast} {envelope : Envelope}
    (hb : s.tasks m.task = some b) (henv : b.envelope = some envelope) (now : Flt) :
    Inv cfg (s.deliver m envelope now) := by
  obtain ⟨hgrow, hstored⟩ := handleEventBatch_spec (s.peers m.address) envelope now
  unfold Network.deliver
  split
  · rename_i n err hn
    rw [hn] at hgrow
    exact h.grow rfl rfl (storedAt_setPeer hgrow)
  · rename_i n newIds hn
    rw [hn] at hgrow hstored
    have hpeer : Inv cfg (s.setPeer m.address n) := h.grow rfl rfl (storedAt_setPeer hgrow)
    refine ⟨fun i b hb => (hpeer.tasks i b hb).grow fun a eventId hs => hs, fun m' hm' => ?_⟩
    rcases Finset.mem_insert.1 hm' with rfl | hm'
    · refine ⟨b, hb, ?_⟩
      have hid := hstored newIds rfl
      rw [(h.tasks _ b hb).envelope envelope henv] at hid
      simpa [StoredAt, setPeer] using hid
    · exact hpeer.answers m' hm'

theorem Inv.endAttempt (h : Inv cfg s) {task : Nat} {b : Broadcast} (hb : s.tasks task = some b)
    (timedOut : Bool) : Inv cfg (s.endAttempt task b timedOut) := by
  have hgood := h.tasks task b hb
  unfold Network.endAttempt
  split
  · rename_i hquorum
    refine h.moveOn hb ⟨hgood.required, hgood.envelope, hgood.acked, fun _ => ?_⟩ rfl
    -- an attempt that timed out counts nothing, and at least one is required
    have hpos := requiredAcks_pos cfg.ratio b.peersTotal
    rw [← hgood.required] at hpos
    cases timedOut with
    | true => exact absurd hquorum (Nat.not_le.2 hpos)
    | false => exact hquorum
  · exact h.moveOn hb ⟨hgood.required, hgood.envelope, hgood.acked, hgood.durable⟩ rfl

theorem Inv.nextAttempt (h : Inv cfg s) {task : Nat} {b : Broadcast} (hb : s.tasks task = some b)
    (hresult : b.result = none) (stopping : Bool) : Inv cfg (s.nextAttempt task b stopping) := by
  have hgood := h.tasks task b hb
  unfold Network.nextAttempt
  split
  · refine h.moveOn hb ⟨hgood.required, hgood.envelope, hgood.acked, fun hd => ?_⟩ rfl
    cases hd
  · refine h.startAttempt hgood.required hgood.envelope hresult fun old hold => ?_
    rw [hb, Option.some.injEq] at hold
    rw [hold]

theorem Inv.startBroadcast (h : Inv cfg s) {task : Nat} (hnew : s.tasks task = none) (eventId : String) :
    Inv cfg (s.startBroadcast cfg task eventId) := by
  have hid : ∀ {b : Broadcast}, ∀ old, s.tasks task = some old → b.eventId = old.eventId := by
    intro b old hold
    rw [hnew] at hold
    cases hold
  have hidle : ∀ b : Broadcast, b.required = requiredAcks cfg.ratio b.peersTotal → b.envelope = none →
      b.acked = ∅ → b.result ≠ some .durable → Inv cfg (s.setTask task b) := by
    intro b hreq henv hacked hresult
    refine h.setTask ⟨hreq, ?_, ?_, fun hd => absurd hd hresult⟩ hid
    · rw [henv]; intro envelope he; cases he
    · rw [hacked]; intro a ha; exact absurd ha (Finset.notMem_empty a)
  unfold Network.startBroadcast
  dsimp only
  split
  · exact hidle _ rfl rfl rfl (by simp)
  · split
    · exact hidle _ rfl rfl rfl (by simp)
    · split
      · exact hidle _ rfl rfl rfl (by simp)
      · rename_i envelope hget
        refine h.startAttempt rfl ?_ rfl hid
        intro envelope' he
        obtain rfl := Option.some.inj he
        exact DAGStorage.getEnvelope_id hget

theorem Inv.emit (h : Inv cfg s) {task : Nat} (hnew : s.tasks task = none) (cls : EventClass)
    (payload : Json) (ts now : Flt) (pick : Nat) : Inv cfg (s.emit cfg task cls payload ts now pick) := by
  unfold Network.emit
  split
  · exact h.grow rfl rfl fun a eventId hs => hs
  · rename_i node stored hn
    have hnode : Inv cfg { s with node := node } := h.grow rfl rfl fun a eventId hs => hs
    split
    · exact hnode.startBroadcast hnew _
    · exact hnode

/-- An answer that counts comes from a peer that has stored the event. -/
theorem Inv.ack (h : Inv cfg s) {m : Message} {b : Broadcast} (hb : s.tasks m.task = some b)
    (hm : m ∈ s.answers) (hresult : b.result = none) :
    Inv cfg (s.setTask m.task { b with acked := insert m.address b.acked }) := by
  have hgood := h.tasks _ b hb
  obtain ⟨b', hb', hstored⟩ := h.answers m hm
  rw [hb, Option.some.injEq] at hb'
  subst hb'
  refine h.moveOn hb ⟨hgood.required, hgood.envelope, fun a ha => ?_, fun hd => ?_⟩ rfl
  · rcases Finset.mem_insert.1 ha with rfl | ha
    · exact hstored
    · exact hgood.acked a ha
  · rw [hresult] at hd
    cases hd

theorem step_inv (h : Inv cfg s) (act : Act) : Inv cfg (s.step cfg act) := by
  cases act with
  | emit task cls payload ts now pick =>
    unfold step
    dsimp only
    split
    · exact h
    · rename_i hnew
      exact h.emit (by simpa using hnew) cls payload ts now pick
  | arrive m now =>
    unfold step
    dsimp only
    split
    · exact h
    · rename_i envelope henv
      obtain ⟨b, hb, henv⟩ := Option.bind_eq_some_iff.1 henv
      split
      · exact h.deliver hb henv now
      · exact h
  | ack m =>
    unfold step
    dsimp only
    split
    · exact h
    · rename_i b hb
      split
      · rename_i hm
        exact h.ack hb hm.1 hm.2.2.2
      · exact h
  | attemptOver task timedOut =>
    unfold step
    dsimp only
    split
    · exact h
    · rename_i b hb
      split
      · exact h.endAttempt hb timedOut
      · exact h
  | backoffOver task stopping =>
    unfold step
    dsimp only
    split
    · exact h
    · rename_i b hb
      split
      · rename_i hm
        exact h.nextAttempt hb hm.2 stopping
      · exact h
  | peersChange active => exact h.grow rfl rfl fun a eventId hs => hs
  | elsewhere node => exact h.grow rfl rfl fun a eventId hs => hs
  | peerActs address node =>
    unfold step
    dsimp only
    split
    · rename_i hgrow
      exact h.grow rfl rfl (storedAt_setPeer hgrow)
    · exact h

/-- **Durable means stored at a quorum.** In every state of every run of a
network, from any nodes and any peers, if an emission has returned "durable",
its event is stored at no fewer distinct addresses than the ratio asks of the
peers that were active when the broadcast began. -/
theorem durable_is_stored (cfg : FanoutConfig) (node : Node) (active : Finset String)
    (peers : String → Node) (acts : List Act) (task : Nat) (b : Broadcast)
    (hb : (run (step cfg) { node, active, peers } acts).tasks task = some b)
    (hdurable : b.result = some .durable) :
    ∃ stored : Finset String, max 1 ⌈cfg.ratio * b.peersTotal⌉₊ ≤ stored.card ∧
      ∀ address ∈ stored,
        b.eventId ∈ ((run (step cfg) { node, active, peers } acts).peers address).storage.ids := by
  have hstart : Inv cfg { node, active, peers } := by
    refine ⟨fun i b hb => ?_, fun m hm => absurd hm (Finset.notMem_empty m)⟩
    cases hb
  have hinv := run_always (I := Inv cfg) (fun _ act h => step_inv h act) acts hstart
  have hgood := hinv.tasks task b hb
  refine ⟨b.acked, ?_, hgood.acked⟩
  have hcard := hgood.durable hdurable
  rwa [hgood.required] at hcard

/-- A node without events that is its only member. -/
def lone (nodeId : String) : Node where
  config := { nodeId := nodeId }
  membership := ⟨[⟨nodeId, "self:" ++ nodeId, "node", true⟩], ""⟩

/-- Two of the three peers store the event, and the answer of one of them is
lost. Before the second attempt one peer leaves the registry. -/
def retried : List Act :=
  [.emit 0 .A (.obj []) (.fin 1) (.fin 1) 0, .arrive ⟨0, 0, "p2"⟩ (.fin 2), .arrive ⟨0, 0, "p3"⟩ (.fin 2),
    .ack ⟨0, 0, "p2"⟩, .attemptOver 0 false, .peersChange {"p3", "p4"}, .backoffOver 0 false,
    .arrive ⟨0, 1, "p3"⟩ (.fin 5), .ack ⟨0, 1, "p3"⟩, .arrive ⟨0, 1, "p4"⟩ (.fin 5), .ack ⟨0, 1, "p4"⟩,
    .attemptOver 0 false]

theorem retried_durable :
    ((run (step ⟨2 / 3, 3⟩) ⟨lone "n1", {"p2", "p3", "p4"}, lone, fun _ => none, ∅, ∅⟩ retried).tasks 0).map
      (fun b => (b.result, b.peersTotal)) = some (some .durable, 3) := by
  decide +kernel

/-- Two peers hold the event. -/
theorem acknowledged_is_stored : ∃ b : Broadcast, b.result = some .durable ∧
    ∃ stored : Finset String, 2 ≤ stored.card ∧ ∀ address ∈ stored,
      b.eventId ∈ ((run (step ⟨2 / 3, 3⟩) ⟨lone "n1", {"p2", "p3", "p4"}, lone, fun _ => none, ∅, ∅⟩
        retried).peers address).storage.ids := by
  obtain ⟨b, hb, hresult⟩ := Option.map_eq_some_iff.1 retried_durable
  obtain ⟨hdurable, htotal⟩ := Prod.mk.inj hresult
  obtain ⟨stored, hcard, hstored⟩ := durable_is_stored ⟨2 / 3, 3⟩ (lone "n1") {"p2", "p3", "p4"} lone retried 0 b hb
    hdurable
  have hrequired : max 1 ⌈(2 / 3 : ℚ) * b.peersTotal⌉₊ = 2 := by
    rw [htotal]
    decide +kernel
  exact ⟨b, hdurable, stored, hrequired ▸ hcard, hstored⟩

end Network
end Mdrj.L5
