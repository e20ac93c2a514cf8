import Mdrj.L4Node.Freshness
import Mdrj.L4Node.Gossip

/-!
# What gossip owes

An event that is stored is queued for gossip. It leaves the queue in a tick,
which sends it, queues it again or drops it; a fast fan-out that does not
reach every peer queues it once more. Retention may delete it meanwhile.

With `recompute_debounce_sec` 0 an emission recomputes between storing its
event and queueing it, and `toposort` raises on a cycle: such an event is
stored, and nothing queues it.

Results:
* `no_event_forgotten`: in every run that starts with a primed queue, every
  stored event is queued, is in the batch being sent, was in a batch that a
  peer answered with 200, is of class C and was dropped by the priority rule,
  or is stranded: its emission raised.
* `stranded_cyclic`: an event gets stranded only while the edges have a cycle.

Priming queues the 1000 oldest events only, so the start may hold no more, and
a negative `fan_out` makes `random.sample` raise, so it is excluded. The queue
itself is the subject of `Gossip`.
-/
namespace Mdrj.L4
open Mdrj.Core Mdrj.L1 Mdrj.L2 Mdrj.L3
open Relation (TransGen)

/-! ## The sender -/

/-- A running node as gossip sees it. -/
structure Sender where
  storage : DAGStorage
  gossip : GossipState := {}
  /-- ghost: the ids of the batches that a peer answered with 200 -/
  answered : List String := []
  /-- ghost: the ids of the envelopes a plan dropped -/
  dropped : List String := []
  /-- ghost: the ids of the events that were stored and whose emission then raised -/
  stranded : List String := []

namespace Sender

def addPending (s : Sender) (eventId : String) : Sender :=
  { s with gossip := { s.gossip with queue := s.gossip.queue.addPending eventId } }

/-- mirrors mdrj/node.py:1985-1990 -/
def primeGossip (storage : DAGStorage) : Sender :=
  (storage.listEvents 1000).foldl (fun s event => s.addPending event.id) { storage := storage }

/-- An emission that recomputes at once, with the states that are written. A
batch recomputes after its last envelope, and a debounced recompute runs later:
here there is none.
mirrors mdrj/node.py:690-780 -/
def requestRecompute (storage : DAGStorage) : Option (List ConsensusState) → Except PyError DAGStorage
  | none => .ok storage
  | some states =>
    match storage.toposort with
    | .error err => .error err
    | .ok _ => .ok (storage.replaceConsensusState states)

/-- mirrors mdrj/node.py:894-913, the part that gossip depends on -/
def persistEnvelope (s : Sender) (envelope : Envelope) (now : Flt) (recompute : Option (List ConsensusState)) :
    Sender :=
  match s.storage.storeEnvelope envelope envelope.event.consensusTs now with
  | .error _ => s
  | .ok (storage, stored) =>
    match requestRecompute storage recompute with
    | .error _ =>
      { s with
        storage := storage
        stranded := s.stranded ++ if stored then [envelope.event.id] else [] }
    | .ok storage =>
      let s := { s with storage := storage }
      if stored then s.addPending envelope.event.id else s

/-- The sends to all peers end together; each has an outcome.
mirrors mdrj/node.py:2012-2026 -/
def fanoutCritical (s : Sender) (eventId : String) (outcomes : List SendOutcome) : Sender :=
  if (s.storage.getEnvelope eventId).isNone then s
  else if outcomes = [] then s
  else if outcomes.all (· == .ok) then s
  else s.addPending eventId

/-- mirrors mdrj/node.py:2028-2041 -/
def broadcastEvent (s : Sender) (eventId : String) (outcomes : List SendOutcome) : Sender :=
  if outcomes = [] then s
  else if (s.storage.getEnvelope eventId).isNone then s
  else outcomes.foldl (fun s outcome => if outcome = .ok then s else s.addPending eventId) s

end Sender

/-- The batch of a tick. -/
def Tick.batch (tick : Tick) : List String := tick.plan.envelopes.map fun envelope => envelope.event.id

def Tick.droppedIds (tick : Tick) : List String := tick.plan.dropped.map fun envelope => envelope.event.id

/-- The tick of a phase, if it has one. -/
def TickPhase.tick? : TickPhase → Option Tick
  | .sending tick => some tick
  | .ended tick _ => some tick
  | .idle => none
  | .raised => none

def TickPhase.inHand : TickPhase → List String
  | .sending tick => tick.batch
  | .idle | .ended .. | .raised => []

inductive SenderAct where
  | persist (envelope : Envelope) (now : Flt) (recompute : Option (List ConsensusState))
  | states (states : List ConsensusState)   -- a recompute
  | prune (confirmedRound : Int) (maxAgeSeconds : Flt) (keepClassA : Bool) (now : Flt)
  | tick (now : Flt) (peers selected : List String)
  | sent (outcome : SendOutcome)
  | fanout (eventId : String) (outcomes : List SendOutcome)
  | broadcast (eventId : String) (outcomes : List SendOutcome)

namespace Sender

def step (e : GossipEngine) (s : Sender) : SenderAct → Sender
  | .persist envelope now recompute => s.persistEnvelope envelope now recompute
  | .states states => { s with storage := s.storage.replaceConsensusState states }
  | .prune confirmedRound maxAgeSeconds keepClassA now =>
    { s with storage := (s.storage.pruneUnderCheckpoint confirmedRound maxAgeSeconds keepClassA now).1 }
  | .tick now peers selected =>
    let gossip := e.step s.gossip (.tick s.storage now peers selected)
    { s with
      gossip := gossip
      dropped := s.dropped ++ (gossip.phase.tick?.map Tick.droppedIds).getD [] }
  | .sent outcome =>
    { s with
      gossip := e.step s.gossip (.sent outcome)
      answered := s.answered ++ if outcome.is200 then s.gossip.phase.inHand else [] }
  | .fanout eventId outcomes => s.fanoutCritical eventId outcomes
  | .broadcast eventId outcomes => s.broadcastEvent eventId outcomes

/-- What has become of an event. -/
def Owed (s : Sender) (event : Event) : Prop :=
  event.id ∈ s.gossip.queue.pending ∨ event.id ∈ s.gossip.phase.inHand ∨ event.id ∈ s.answered ∨
    event.cls = .C ∧ event.id ∈ s.dropped ∨ event.id ∈ s.stranded

end Sender

/-! ## What a plan drops -/

/-- Only class C is dropped: class A always goes out, and class B is forced. -/
theorem planLoop_dropped (p : Prioritizer) : ∀ (rest : List Envelope) (required : List String) (plan : BatchPlan),
    (∀ envelope ∈ plan.dropped, envelope.event.cls = .C) →
      ∀ envelope ∈ (p.planLoop required plan rest).dropped, envelope.event.cls = .C := by
  intro rest
  induction rest with
  | nil => intro required plan h; exact h
  | cons head rest ih =>
    intro required plan h
    unfold Prioritizer.planLoop
    dsimp only
    split
    · rename_i hrelay
      refine ih _ _ fun envelope hmem => ?_
      rcases List.mem_append.1 hmem with hold | hnew
      · exact h envelope hold
      · obtain rfl := List.mem_singleton.1 hnew
        unfold Prioritizer.shouldRelay at hrelay
        cases hcls : envelope.event.cls with
        | A => simp [hcls] at hrelay
        | B => simp [hcls] at hrelay
        | C => rfl
    · split
      · exact ih _ _ h
      · exact ih _ _ h

theorem planBatch_dropped (p : Prioritizer) (envelopes : List Envelope) (required : List String) :
    ∀ envelope ∈ (p.planBatch envelopes required).dropped, envelope.event.cls = .C :=
  planLoop_dropped p _ _ _ fun _ h => absurd h List.not_mem_nil

/-! ## One tick -/

namespace GossipEngine
variable {e : GossipEngine} {queue : GossipQueue} {s : DAGStorage} {now : Flt} {peers selected : List String}

/-- What a tick has taken, and from where its plan drops. -/
structure Started (s : DAGStorage) (queue : GossipQueue) (tick : Tick) : Prop where
  answered : tick.answered = false
  taken : tick.taken = queue.pending.filter fun eventId => (s.getEnvelope eventId).isSome
  dropped : ∀ envelope ∈ tick.plan.dropped, envelope.event.cls = .C ∧
    ∃ stored, s.getEnvelope envelope.event.id = some stored ∧ stored.event = envelope.event

theorem collectLoop_events (s : DAGStorage) (hop : Hop) : ∀ (ids : List String) (known : Finset String)
    (envelopes : List Envelope), ∀ envelope ∈ (GossipQueue.collectLoop s hop ids known envelopes).2,
      envelope ∈ envelopes ∨ ∃ stored, s.getEnvelope envelope.event.id = some stored ∧
        stored.event = envelope.event := by
  intro ids
  induction ids with
  | nil => intro known envelopes envelope h; exact .inl h
  | cons eventId ids ih =>
    intro known envelopes envelope h
    unfold GossipQueue.collectLoop at h
    split at h
    · exact ih _ _ envelope h
    · rename_i stored hget
      rcases ih _ _ envelope h with h | h
      · rcases List.mem_append.1 h with hold | hnew
        · exact .inl hold
        · obtain rfl := List.mem_singleton.1 hnew
          refine .inr ⟨stored, ?_, rfl⟩
          rw [DAGStorage.getEnvelope_id hget]
          exact hget
      · exact .inr h

/-- A tick starts with what was queued, and answers are still to come. -/
theorem startTick_started (hfan : 0 ≤ e.fanOut) (queue : GossipQueue) (s : DAGStorage) (now : Flt)
    (peers selected : List String) : ∃ tick,
      (e.startTick queue s now peers selected).phase.tick? = some tick ∧ Started s queue tick := by
  have hevents := collectLoop_events s ⟨some e.nodeId, some now⟩ queue.pending queue.known []
  have hnegative : ¬ min e.fanOut peers.length < 0 := by omega
  unfold startTick GossipQueue.collectPending
  dsimp only
  generalize GossipQueue.collectLoop s ⟨some e.nodeId, some now⟩ queue.pending queue.known [] = collected
    at hevents ⊢
  obtain ⟨queue', envelopes⟩ := collected
  dsimp only at hevents ⊢
  have hplan : ∀ envelope ∈ (e.prioritizer.planBatch envelopes (requiredIds envelopes)).dropped,
      envelope.event.cls = .C ∧
        ∃ stored, s.getEnvelope envelope.event.id = some stored ∧ stored.event = envelope.event := by
    intro envelope hmem
    refine ⟨planBatch_dropped _ _ _ envelope hmem, ?_⟩
    have hcollected := (e.prioritizer.planBatch_has envelopes (requiredIds envelopes) envelope).1 (.inr (.inr hmem))
    exact (hevents envelope hcollected).resolve_left List.not_mem_nil
  rw [if_neg hnegative]
  split
  · exact ⟨_, rfl, rfl, rfl, fun envelope hmem => absurd hmem List.not_mem_nil⟩
  · split
    · exact ⟨_, rfl, rfl, rfl, hplan⟩
    · split
      · exact ⟨_, rfl, rfl, rfl, hplan⟩
      · split
        · exact ⟨_, rfl, rfl, rfl, hplan⟩
        · exact ⟨_, rfl, rfl, rfl, hplan⟩

/-- Everything a starting tick takes is queued, in hand or dropped. -/
theorem startTick_places (hfan : 0 ≤ e.fanOut) (hq : queue.Coherent) {id : String} (hid : id ∈ queue.pending)
    (hstored : (s.getEnvelope id).isSome = true) :
    id ∈ (e.startTick queue s now peers selected).queue.pending ∨
      id ∈ (e.startTick queue s now peers selected).phase.inHand ∨
      ∃ tick, (e.startTick queue s now peers selected).phase.tick? = some tick ∧ id ∈ tick.droppedIds := by
  obtain ⟨tick, htick, hstarted⟩ := startTick_started hfan queue s now peers selected
  have hinv := (startTick_inv e hq s now peers selected).phase
  have htaken : id ∈ tick.taken := by
    rw [hstarted.taken]
    exact List.mem_filter.2 ⟨hid, hstored⟩
  cases hphase : (e.startTick queue s now peers selected).phase with
  | idle => rw [hphase] at htick; cases htick
  | raised => rw [hphase] at htick; cases htick
  | sending tick' =>
    rw [hphase] at htick hinv
    obtain rfl := Option.some.inj htick
    rcases hinv.2 id htaken with hbatch | hqueued | hdropped
    · exact .inr (.inl hbatch)
    · exact .inl hqueued
    · exact .inr (.inr ⟨_, rfl, hdropped⟩)
  | ended tick' stats =>
    rw [hphase] at htick hinv
    obtain rfl := Option.some.inj htick
    rcases hinv.2 id htaken with hanswered | hqueued | hdropped
    · rw [hstarted.answered] at hanswered
      exact absurd hanswered.1 (by decide)
    · exact .inl hqueued
    · exact .inr (.inr ⟨_, rfl, hdropped⟩)

theorem finish_queue {tick : Tick} (hq : queue.Coherent) {id : String} (hid : id ∈ queue.pending) :
    id ∈ (finish queue tick).queue.pending := by
  unfold finish
  dsimp only
  split
  · exact (hq.mem_addAll _).2 (.inr hid)
  · exact hid

theorem finish_batch {tick : Tick} (hq : queue.Coherent) {id : String} (hid : id ∈ tick.batch) :
    id ∈ (finish queue tick).queue.pending ∨ 0 < tick.sent := by
  unfold finish
  dsimp only
  split
  · exact .inl ((hq.mem_addAll _).2 (.inl hid))
  · rename_i hpos
    exact .inr (Nat.pos_of_ne_zero hpos)

/-- A send that ends leaves the batch in hand, queues it again, or ends a tick
that was answered. -/
theorem sendEnded_batch {tick : Tick} (hq : queue.Coherent) (outcome : SendOutcome) {id : String}
    (hid : id ∈ tick.batch) : id ∈ (sendEnded queue tick outcome).queue.pending ∨
      id ∈ (sendEnded queue tick outcome).phase.inHand ∨ 0 < tick.sent ∨ outcome.is200 = true := by
  unfold sendEnded
  dsimp only
  split
  · refine Or.imp_right (fun hpos => .inr ?_) (finish_batch hq ?_)
    · by_cases hok : outcome = .ok
      · exact .inr (by rw [hok]; rfl)
      · dsimp only at hpos
        rw [if_neg hok] at hpos
        exact .inl hpos
    · exact hid
  · exact .inr (.inl hid)

theorem sendEnded_queue {tick : Tick} (hq : queue.Coherent) {outcome : SendOutcome} {id : String}
    (hid : id ∈ queue.pending) : id ∈ (sendEnded queue tick outcome).queue.pending := by
  unfold sendEnded
  dsimp only
  split
  · exact finish_queue hq hid
  · exact hid

end GossipEngine

/-! ## Persisting and fast sends -/

namespace Sender

section Kept
variable {P : Sender → Prop} (hadd : ∀ s eventId, P s → P (s.addPending eventId))
include hadd

/-- A fast fan-out queues its event or does nothing. -/
theorem fanoutCritical_kept {s : Sender} {eventId : String} {outcomes : List SendOutcome} (h : P s) :
    P (s.fanoutCritical eventId outcomes) := by
  unfold fanoutCritical
  split
  · exact h
  · split
    · exact h
    · split
      · exact h
      · exact hadd s eventId h

theorem broadcastEvent_kept {s : Sender} {eventId : String} {outcomes : List SendOutcome} (h : P s) :
    P (s.broadcastEvent eventId outcomes) := by
  unfold broadcastEvent
  split
  · exact h
  · split
    · exact h
    · refine List.foldlRecOn outcomes _ h fun s h outcome _ => ?_
      split
      · exact h
      · exact hadd s eventId h

end Kept

/-- Nothing was stored; or the recompute raised; or some states were written,
maybe none, and a new event is queued. -/
theorem persistEnvelope_cases (s : Sender) (envelope : Envelope) (now : Flt)
    (recompute : Option (List ConsensusState)) :
    (∃ err, s.storage.storeEnvelope envelope envelope.event.consensusTs now = .error err) ∧
      s.persistEnvelope envelope now recompute = s ∨
    ∃ storage stored, s.storage.storeEnvelope envelope envelope.event.consensusTs now = .ok (storage, stored) ∧
      ((∃ err, storage.toposort = .error err) ∧ s.persistEnvelope envelope now recompute =
          { s with
            storage := storage
            stranded := s.stranded ++ if stored then [envelope.event.id] else [] } ∨
        ∃ states, s.persistEnvelope envelope now recompute =
          if stored then ({ s with storage := storage.replaceConsensusState states } : Sender).addPending envelope.event.id
          else { s with storage := storage.replaceConsensusState states }) := by
  unfold persistEnvelope
  cases hs : s.storage.storeEnvelope envelope envelope.event.consensusTs now with
  | error err => exact .inl ⟨⟨err, rfl⟩, rfl⟩
  | ok p =>
    obtain ⟨storage, stored⟩ := p
    refine .inr ⟨storage, stored, rfl, ?_⟩
    cases recompute with
    | none => exact .inr ⟨[], rfl⟩
    | some states =>
      unfold requestRecompute
      dsimp only
      cases hsort : storage.toposort with
      | error err => exact .inl ⟨⟨err, rfl⟩, rfl⟩
      | ok order => exact .inr ⟨states, rfl⟩

theorem replaceConsensusState_row {storage : DAGStorage} {states : List ConsensusState} {row : EventRow}
    (hrow : row ∈ (storage.replaceConsensusState states).events) :
    ∃ row₀ ∈ storage.events, row₀.event.id = row.event.id ∧ row₀.event.cls = row.event.cls := by
  have hmap := DAGStorage.replaceConsensusState_map (f := fun row => (row.event.id, row.event.cls))
    (fun _ _ => rfl) storage states
  obtain ⟨row₀, hrow₀, heq⟩ := DAGStorage.exists_row hmap hrow
  exact ⟨row₀, hrow₀, (Prod.mk.inj heq).1, (Prod.mk.inj heq).2⟩

end Sender

/-! ## Runs -/

namespace Sender
variable {e : GossipEngine} {s : Sender}

/-- Ids are unique, the queue and its phase are sound, what a tick that was
answered sends is noted, and every event is accounted for. -/
structure Inv (s : Sender) : Prop where
  tables : Tables s.storage
  gossip : GossipEngine.Inv s.gossip
  notRaised : s.gossip.phase ≠ .raised
  noted : ∀ tick, s.gossip.phase = .sending tick → 0 < tick.sent → ∀ id ∈ tick.batch, id ∈ s.answered
  owed : ∀ row ∈ s.storage.events, s.Owed row.event

theorem mem_addPending (h : s.gossip.queue.Coherent) {eventId id : String} :
    id ∈ (s.addPending eventId).gossip.queue.pending ↔ id = eventId ∨ id ∈ s.gossip.queue.pending := by
  have hmem := (h.add eventId).mem_known (a := id)
  rw [WorkQueue.mem_known_add, h.mem_known] at hmem
  exact hmem.symm

/-- It counts what id and class an event has. -/
theorem Owed.of_eq {event event' : Event} (howed : s.Owed event) (hid : event.id = event'.id)
    (hcls : event.cls = event'.cls) : s.Owed event' := by
  unfold Owed at howed ⊢
  rw [hid, hcls] at howed
  exact howed

theorem Owed.addPending (h : s.gossip.queue.Coherent) {event : Event} (howed : s.Owed event) (eventId : String) :
    (s.addPending eventId).Owed event := by
  rcases howed with hqueued | hrest
  · exact .inl ((mem_addPending h).2 (.inr hqueued))
  · exact .inr hrest

theorem Inv.addPending (h : s.Inv) (eventId : String) : (s.addPending eventId).Inv where
  tables := h.tables
  gossip := ⟨h.gossip.coherent.add eventId, h.gossip.phase.mono fun _ hid =>
    (mem_addPending h.gossip.coherent).2 (.inr hid)⟩
  notRaised := h.notRaised
  noted := h.noted
  owed := fun row hrow => (h.owed row hrow).addPending h.gossip.coherent eventId

/-- A row after storing an envelope is of an event that was there, or of the new one. -/
theorem Inv.stored_owed (h : s.Inv) {envelope : Envelope} {ts : Option Flt} {now : Flt} {storage : DAGStorage}
    {stored : Bool} (hs : s.storage.storeEnvelope envelope ts now = .ok (storage, stored)) :
    ∀ row ∈ storage.events, s.Owed row.event ∨ stored = true ∧ row.event.id = envelope.event.id := by
  have hunfilled : DAGStorage.Unfilled fun row => (row.event.id, row.event.cls) := fun _ _ _ _ => rfl
  intro row hrow
  rcases DAGStorage.storeEnvelope_map hunfilled hs with ⟨-, -, hmap⟩ | ⟨-, hstored, hmap⟩
  · obtain ⟨row₀, hrow₀, heq⟩ := DAGStorage.exists_row hmap hrow
    exact .inl ((h.owed row₀ hrow₀).of_eq (Prod.mk.inj heq).1 (Prod.mk.inj heq).2)
  · rcases DAGStorage.storeEnvelope_row hunfilled hs hrow with ⟨row₀, hrow₀, heq⟩ | heq
    · exact .inl ((h.owed row₀ hrow₀).of_eq (Prod.mk.inj heq).1 (Prod.mk.inj heq).2)
    · exact .inr ⟨hstored, (Prod.mk.inj heq).1⟩

theorem Inv.persist (h : s.Inv) (envelope : Envelope) (now : Flt) (recompute : Option (List ConsensusState)) :
    (s.persistEnvelope envelope now recompute).Inv := by
  rcases persistEnvelope_cases s envelope now recompute with ⟨-, heq⟩ | ⟨storage, stored, hs, hraised | hqueued⟩
  · rw [heq]
    exact h
  · obtain ⟨-, heq⟩ := hraised
    rw [heq]
    refine ⟨h.tables.storeEnvelope hs, h.gossip, h.notRaised, h.noted, fun row hrow => ?_⟩
    rcases h.stored_owed hs row hrow with hold | ⟨rfl, hid⟩
    · rcases hold with hqueued | hhand | hanswered | hdropped | hstranded
      · exact .inl hqueued
      · exact .inr (.inl hhand)
      · exact .inr (.inr (.inl hanswered))
      · exact .inr (.inr (.inr (.inl hdropped)))
      · exact .inr (.inr (.inr (.inr (List.mem_append_left _ hstranded))))
    · exact .inr (.inr (.inr (.inr (List.mem_append_right _ (List.mem_singleton.2 hid)))))
  · obtain ⟨states, heq⟩ := hqueued
    rw [heq]
    have htab := (h.tables.storeEnvelope hs).replaceConsensusState states
    have hrows : ∀ row ∈ (storage.replaceConsensusState states).events,
        s.Owed row.event ∨ stored = true ∧ row.event.id = envelope.event.id := by
      intro row hrow
      obtain ⟨row₀, hrow₀, hid, hcls⟩ := replaceConsensusState_row hrow
      rcases h.stored_owed hs row₀ hrow₀ with howed | ⟨hstored, hnew⟩
      · exact .inl (howed.of_eq hid hcls)
      · exact .inr ⟨hstored, hid ▸ hnew⟩
    cases stored with
    | false =>
      refine ⟨htab, h.gossip, h.notRaised, h.noted, fun row hrow => ?_⟩
      exact (hrows row hrow).resolve_right fun hnew => absurd hnew.1 (by decide)
    | true =>
      have hgossip := (h.addPending envelope.event.id).gossip
      refine ⟨htab, hgossip, h.notRaised, h.noted, fun row hrow => ?_⟩
      rcases hrows row hrow with howed | hnew
      · exact howed.addPending h.gossip.coherent envelope.event.id
      · exact .inl ((mem_addPending h.gossip.coherent).2 (.inl hnew.2))

/-- A step that leaves ids and classes, or deletes rows. -/
theorem Inv.of_rows (h : s.Inv) {storage : DAGStorage} (htab : Tables storage)
    (hrows : ∀ row ∈ storage.events, ∃ row₀ ∈ s.storage.events, row₀.event.id = row.event.id ∧
      row₀.event.cls = row.event.cls) : ({ s with storage := storage } : Sender).Inv := by
  refine ⟨htab, h.gossip, h.notRaised, h.noted, fun row hrow => ?_⟩
  obtain ⟨row₀, hrow₀, hid, hcls⟩ := hrows row hrow
  exact (h.owed row₀ hrow₀).of_eq hid hcls

theorem getEnvelope_row {storage : DAGStorage} (hn : storage.ids.Nodup) {row : EventRow} (hrow : row ∈ storage.events)
    {envelope : Envelope} (h : storage.getEnvelope row.event.id = some envelope) :
    envelope.event = DAGStorage.loadEvent row := by
  unfold DAGStorage.getEnvelope DAGStorage.getEvent at h
  rw [Option.map_map, Option.map_eq_some_iff] at h
  obtain ⟨row', hfind, rfl⟩ := h
  have hid : row'.event.id = row.event.id := by simpa using List.find?_some hfind
  obtain rfl : row' = row := List.inj_on_of_nodup_map hn (List.mem_of_find?_eq_some hfind) hrow hid
  rfl

theorem stored_getEnvelope {storage : DAGStorage} {row : EventRow} (hrow : row ∈ storage.events) :
    (storage.getEnvelope row.event.id).isSome = true := by
  obtain ⟨event, hget⟩ := getEvent_isSome (List.mem_map_of_mem (f := fun row : EventRow => row.event.id) hrow)
  unfold DAGStorage.getEnvelope
  rw [hget]
  rfl

/-- No tick is in progress: a new one starts. -/
theorem Inv.startTick (hfan : 0 ≤ e.fanOut) (h : s.Inv) (hnone : s.gossip.phase.inHand = []) (now : Flt)
    (peers selected : List String) {gossip : GossipState}
    (hgossip : gossip = e.startTick s.gossip.queue s.storage now peers selected) :
    ({ s with
      gossip := gossip
      dropped := s.dropped ++ (gossip.phase.tick?.map Tick.droppedIds).getD [] } : Sender).Inv := by
  obtain ⟨tick, htick, hstarted⟩ := GossipEngine.startTick_started hfan s.gossip.queue s.storage now peers selected
  have hinv := GossipEngine.startTick_inv e h.gossip.coherent s.storage now peers selected
  rw [← hgossip] at htick hinv
  have hsending : ∀ tick', gossip.phase = .sending tick' → tick' = tick := by
    intro tick' hphase
    rw [hphase] at htick
    exact Option.some.inj htick
  refine ⟨h.tables, hinv, ?_, fun tick' hphase hpos => ?_, fun row hrow => ?_⟩
  · intro hraised
    dsimp only at hraised
    rw [hraised] at htick
    cases htick
  · -- nothing has been sent yet, since nothing was answered
    obtain rfl := hsending tick' hphase
    have hphaseInv := hinv.phase
    rw [hphase] at hphaseInv
    have hanswered := hphaseInv.1 hpos
    rw [hstarted.answered] at hanswered
    exact absurd hanswered (by decide)
  · rcases h.owed row hrow with hqueued | hhand | hanswered | hdropped | hstranded
    · rcases GossipEngine.startTick_places hfan h.gossip.coherent hqueued (stored_getEnvelope hrow) with
        hq | hh | ⟨tick', htick', hmem⟩
      · exact .inl (hgossip ▸ hq)
      · exact .inr (.inl (hgossip ▸ hh))
      · rw [← hgossip] at htick'
        obtain rfl := Option.some.inj (htick'.symm.trans htick)
        obtain ⟨envelope, henvelope, hid⟩ := List.mem_map.1 hmem
        obtain ⟨hcls, stored, hget, hevent⟩ := hstarted.dropped envelope henvelope
        rw [hid] at hget
        have hrowcls : row.event.cls = .C := by
          have hloaded := congrArg Event.cls (getEnvelope_row h.tables.nodup hrow hget)
          rw [hevent, hcls] at hloaded
          exact hloaded.symm
        refine .inr (.inr (.inr (.inl ⟨hrowcls, List.mem_append_right _ ?_⟩)))
        rw [htick]
        exact hmem
    · rw [hnone] at hhand
      exact absurd hhand List.not_mem_nil
    · exact .inr (.inr (.inl hanswered))
    · exact .inr (.inr (.inr (.inl ⟨hdropped.1, List.mem_append_left _ hdropped.2⟩)))
    · exact .inr (.inr (.inr (.inr hstranded)))

theorem Inv.sent (h : s.Inv) (outcome : SendOutcome) : (s.step e (.sent outcome)).Inv := by
  unfold step GossipEngine.step
  dsimp only
  split
  · rename_i tick hphase
    have hphaseInv := h.gossip.phase
    rw [hphase] at hphaseInv
    have hinv := GossipEngine.sendEnded_inv h.gossip.coherent hphaseInv outcome
    have hnoted := h.noted tick hphase
    have hhand : s.gossip.phase.inHand = tick.batch := by rw [hphase]; rfl
    rw [hhand]
    refine ⟨h.tables, hinv, ?_, fun tick' hphase' hpos id hid => ?_, fun row hrow => ?_⟩
    · dsimp only
      unfold GossipEngine.sendEnded
      dsimp only
      split
      · exact fun hr => by cases hr
      · exact fun hr => by cases hr
    · -- the tick goes on, with this outcome added
      dsimp only at hphase'
      unfold GossipEngine.sendEnded at hphase'
      dsimp only at hphase'
      split at hphase'
      · cases hphase'
      · obtain rfl := TickPhase.sending.inj hphase'
        dsimp only at hpos
        by_cases hok : outcome = .ok
        · have h200 : outcome.is200 = true := by rw [hok]; rfl
          rw [if_pos h200]
          exact List.mem_append_right _ hid
        · rw [if_neg hok] at hpos
          exact List.mem_append_left _ (hnoted hpos id hid)
    · rcases h.owed row hrow with hqueued | hbatch | hanswered | hrest
      · exact .inl (GossipEngine.sendEnded_queue h.gossip.coherent hqueued)
      · rw [hhand] at hbatch
        have hplaces := GossipEngine.sendEnded_batch h.gossip.coherent outcome hbatch
        rcases hplaces with hq | hh | hpos | h200
        · exact .inl hq
        · exact .inr (.inl hh)
        · exact .inr (.inr (.inl (List.mem_append_left _ (hnoted hpos _ hbatch))))
        · refine .inr (.inr (.inl (List.mem_append_right _ ?_)))
          rw [if_pos h200]
          exact hbatch
      · exact .inr (.inr (.inl (List.mem_append_left _ hanswered)))
      · exact .inr (.inr (.inr hrest))
  · rename_i hphase
    have hhand : s.gossip.phase.inHand = [] := by
      cases hp : s.gossip.phase with
      | sending tick => exact absurd hp (hphase tick)
      | idle => rfl
      | ended tick stats => rfl
      | raised => rfl
    rw [hhand, ite_self, List.append_nil]
    exact h

theorem step_inv (hfan : 0 ≤ e.fanOut) (s : Sender) (act : SenderAct) (h : s.Inv) : (s.step e act).Inv := by
  cases act with
  | persist envelope now recompute => exact h.persist envelope now recompute
  | states states =>
    exact h.of_rows (h.tables.replaceConsensusState states) fun row hrow => replaceConsensusState_row hrow
  | prune confirmedRound maxAgeSeconds keepClassA now =>
    refine h.of_rows (h.tables.prune confirmedRound maxAgeSeconds keepClassA now) fun row hrow => ?_
    exact ⟨row, List.mem_of_mem_filter hrow, rfl, rfl⟩
  | tick now peers selected =>
    unfold step GossipEngine.step
    dsimp only
    split
    · rename_i hphase
      exact h.startTick hfan (by rw [hphase]; rfl) now peers selected rfl
    · rename_i hphase
      exact h.startTick hfan (by rw [hphase]; rfl) now peers selected rfl
    · refine ⟨h.tables, h.gossip, h.notRaised, h.noted, fun row hrow => ?_⟩
      rcases h.owed row hrow with hqueued | hhand | hanswered | hdropped | hstranded
      · exact .inl hqueued
      · exact .inr (.inl hhand)
      · exact .inr (.inr (.inl hanswered))
      · exact .inr (.inr (.inr (.inl ⟨hdropped.1, List.mem_append_left _ hdropped.2⟩)))
      · exact .inr (.inr (.inr (.inr hstranded)))
  | sent outcome => exact h.sent outcome
  | fanout eventId outcomes => exact fanoutCritical_kept (P := Inv) (fun s eventId h => h.addPending eventId) h
  | broadcast eventId outcomes => exact broadcastEvent_kept (P := Inv) (fun s eventId h => h.addPending eventId) h

/-- Queueing the ids of a list of events. -/
theorem addAll_spec (events : List Event) : ∀ {s : Sender}, s.gossip.queue.Coherent → s.gossip.phase = .idle →
    let s' := events.foldl (fun s event => s.addPending event.id) s
    s'.gossip.queue.Coherent ∧ s'.gossip.phase = .idle ∧ s'.storage = s.storage ∧
      ∀ id, id ∈ s'.gossip.queue.pending ↔ id ∈ ids events ∨ id ∈ s.gossip.queue.pending := by
  induction events with
  | nil =>
    intro s hq hidle
    exact ⟨hq, hidle, rfl, fun id => (or_iff_right List.not_mem_nil).symm⟩
  | cons event events ih =>
    intro s hq hidle
    have hq₁ : (s.addPending event.id).gossip.queue.Coherent := hq.add event.id
    obtain ⟨hq', hidle', hstorage, hmem⟩ := ih hq₁ hidle
    refine ⟨hq', hidle', hstorage, fun id => ?_⟩
    have hcons : id ∈ ids (event :: events) ↔ id = event.id ∨ id ∈ ids events := List.mem_cons
    rw [List.foldl_cons, hmem, mem_addPending hq, hcons]
    tauto

/-- Of at most 1000 events each is queued. -/
theorem primeGossip_inv {storage : DAGStorage} (htab : Tables storage) (hfew : storage.events.length ≤ 1000) :
    (primeGossip storage).Inv := by
  have hall : storage.listEvents 1000 = storage.allEvents := by
    refine List.take_of_length_le ?_
    unfold DAGStorage.allEvents
    rw [List.length_map, List.length_insertionSort]
    exact hfew
  obtain ⟨hq, hidle, hstorage, hmem⟩ := addAll_spec (storage.listEvents 1000)
    (s := { storage := storage }) GossipEngine.empty_coherent rfl
  change (primeGossip storage).gossip.queue.Coherent at hq
  change (primeGossip storage).gossip.phase = .idle at hidle
  change (primeGossip storage).storage = storage at hstorage
  refine ⟨?_, ⟨hq, ?_⟩, ?_, fun tick hphase => ?_, fun row hrow => .inl ((hmem _).2 (.inl ?_))⟩
  · rw [hstorage]
    exact htab
  · rw [hidle]
    trivial
  · rw [hidle]
    exact fun h => by cases h
  · rw [hidle] at hphase
    cases hphase
  · rw [hstorage] at hrow
    rw [hall]
    exact (allEvents_ids storage).mem_iff.2 (List.mem_map_of_mem hrow)

/-- A step strands an event only when its own recompute finds a cycle. -/
theorem stranded_cyclic (htab : Tables s.storage) (act : SenderAct) {id : String}
    (hid : id ∈ (s.step e act).stranded) (hnew : id ∉ s.stranded) :
    ∃ x, TransGen (Kahn.Edge (s.step e act).storage.ids (s.step e act).storage.edges) x x := by
  cases act with
  | persist envelope now recompute =>
    change id ∈ (s.persistEnvelope envelope now recompute).stranded at hid
    change ∃ x, TransGen (Kahn.Edge (s.persistEnvelope envelope now recompute).storage.ids
      (s.persistEnvelope envelope now recompute).storage.edges) x x
    rcases persistEnvelope_cases s envelope now recompute with ⟨-, heq⟩ | ⟨storage, stored, hs, hraised | hqueued⟩
    · rw [heq] at hid
      exact absurd hid hnew
    · obtain ⟨⟨err, hsort⟩, heq⟩ := hraised
      rw [heq]
      by_contra hacyclic
      have hsome := (Kahn.toposort_isSome_iff (htab.storeEnvelope hs).nodup).2 (not_exists.1 hacyclic)
      obtain ⟨order, horder⟩ := Option.isSome_iff_exists.1 hsome
      unfold DAGStorage.toposort at hsort
      rw [horder] at hsort
      cases hsort
    · obtain ⟨states, heq⟩ := hqueued
      rw [heq] at hid
      cases stored with
      | false => exact absurd hid hnew
      | true => exact absurd hid hnew
  | fanout eventId outcomes =>
    exact absurd hid (fanoutCritical_kept (P := fun s => id ∉ s.stranded) (fun _ _ h => h) hnew)
  | broadcast eventId outcomes =>
    exact absurd hid (broadcastEvent_kept (P := fun s => id ∉ s.stranded) (fun _ _ h => h) hnew)
  | states | prune | tick | sent => exact absurd hid hnew

/-- **No event is forgotten.** Gossip starts with sound tables of at most 1000
events and a `fan_out` that is not negative. In every run of persisted
envelopes, recomputes, retention passes, ticks, sends, fast fan-outs and
broadcasts, in any order and with any outcomes, every event that is stored is
queued, or in the batch a tick is sending, or was in a batch that a peer
answered with 200; or it is of class C and a plan dropped it; or its emission
raised on a cycle before it was queued. -/
theorem no_event_forgotten (e : GossipEngine) (hfan : 0 ≤ e.fanOut) {storage : DAGStorage}
    (htab : Tables storage) (hfew : storage.events.length ≤ 1000) (acts : List SenderAct) :
    ∀ row ∈ (run (step e) (primeGossip storage) acts).storage.events,
      (run (step e) (primeGossip storage) acts).Owed row.event :=
  (run_always (I := Inv) (step_inv hfan) acts (primeGossip_inv htab hfew)).owed

/-- An event of class A that is emitted with an immediate recompute and whose
first tick reaches nobody. -/
theorem no_event_forgotten_unreachable :
    (run (step ⟨"n1", 2, {}⟩) (primeGossip {})
      [.persist ⟨{ Event.linked "x" "n1" [] with cls := .A }, []⟩ (.fin 0) (some []),
        .tick (.fin 1) ["n2"] ["n2"], .sent .failed]).Owed { Event.linked "x" "n1" [] with cls := .A } :=
  no_event_forgotten ⟨"n1", 2, {}⟩ (by decide) Tables.empty (by decide)
    [.persist ⟨{ Event.linked "x" "n1" [] with cls := .A }, []⟩ (.fin 0) (some []),
      .tick (.fin 1) ["n2"] ["n2"], .sent .failed]
    ⟨{ Event.linked "x" "n1" [] with cls := .A }, .fin 0⟩ (List.mem_singleton.2 rfl)

/-- A peer has sent an event that is its own parent: the next emission is
stored and stranded. -/
example :
    let s := run (step ⟨"n1", 2, {}⟩) (primeGossip {})
      [.persist ⟨Event.linked "y" "n2" ["y"], []⟩ (.fin 0) none,
        .persist ⟨Event.linked "x" "n1" [], []⟩ (.fin 1) (some [])]
    s.storage.ids = ["y", "x"] ∧ s.gossip.queue.pending = ["y"] ∧ s.stranded = ["x"] := by
  decide

end Sender
end Mdrj.L4
