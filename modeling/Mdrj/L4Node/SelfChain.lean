import Mdrj.Core.Runs
import Mdrj.Core.Sorting
import Mdrj.L4Node.Freshness

/-!
# The node's own chain

A node links every event it emits to the one before. It does not remember
that event: it asks the store for the newest row under its name, by the
clock reading of the insertion, and fills up with cached anchors. The run
here is of one node from its first start: emissions, deliveries, retention
passes and restarts on the same database, with any clock readings. What the
node emitted last is kept beside it for the statement.

* `emitParents_newest`: the parents of the next event, in terms of the store.
* `chain_unforked_iff`: the emissions of a run continue the chain exactly
  when, at each, the last event is still stored as the newest one under the
  node's name and the anchor that is needed is stored.
-/
namespace Mdrj.L4
open Mdrj.Core Mdrj.L1 Mdrj.L2 Mdrj.L3

/-! ## Starting -/

namespace Node

/-- `identity` is what the node knows of itself: its host and its addresses.
mirrors mdrj/node.py:1089-1106 -/
def genesisEvent (n : Node) (identity : List (String × Json)) (ts : Flt) : Event :=
  let payload := Json.obj ([("anchor", .int 0), ("node", .str n.config.nodeId), ("genesis", .bool true),
    ("genesis_kind", .str "node_identity")] ++ identity)
  { Event.create .C n.config.nodeId ts [] [] payload none (some n.config.nodeId) none none with
    consensusTs := some ts }

/-- mirrors mdrj/node.py:1066-1116 -/
def bootstrapGenesis (n : Node) (identity : List (String × Json)) (ts now : Flt) : Call Unit :=
  if n.storage.events.isEmpty then
    let event := n.genesisEvent identity ts
    match n.storage.storeEnvelope ⟨event, [⟨some n.config.nodeId, some ts⟩]⟩ (some ts) now with
    | .error err => ⟨n, .error err⟩
    | .ok (storage, _) => ⟨{ n with storage := storage, anchors := [event.id] }, .ok ()⟩
  else ⟨{ n with anchors := n.anchorIds }, .ok ()⟩

/-- A new process on the same database. -/
def restart (n : Node) (identity : List (String × Json)) (ts now : Flt) : Call Unit :=
  bootstrapGenesis { n with vectorClock := [], anchors := [] } identity ts now

/-- The journal is emptied and starts anew with the genesis event.
mirrors mdrj/node.py:955-968 -/
def clearEventsLocal (n : Node) (identity : List (String × Json)) (ts now : Flt) : Call Unit :=
  match bootstrapGenesis { n with storage := n.storage.clearEvents, vectorClock := [], anchors := [] }
    identity ts now with
  | ⟨n, .error err⟩ => ⟨n, .error err⟩
  | ⟨n, .ok ()⟩ => n.recomputeConsensus

end Node

/-! ## The parents of the next event -/

section Parents
variable {n : Node} {prev : String}

/-- The loop over the anchors leaves two parents alone, -/
theorem addAnchors_two (anchors : List String) (prev x : String) :
    anchors.foldl (fun parents anchor =>
      if 2 ≤ parents.length ∨ anchor ∈ parents then parents else parents ++ [anchor]) [prev, x] =
      [prev, x] := by
  induction anchors with
  | nil => rfl
  | cons a anchors ih => rw [List.foldl_cons, if_pos (.inl (by simp)), ih]

/-- and to a single parent it adds the first anchor that is another event. -/
theorem addAnchors_one (anchors : List String) (prev : String) :
    anchors.foldl (fun parents anchor =>
      if 2 ≤ parents.length ∨ anchor ∈ parents then parents else parents ++ [anchor]) [prev] =
      prev :: (anchors.find? (· ≠ prev)).toList := by
  induction anchors with
  | nil => rfl
  | cons a anchors ih =>
    rw [List.foldl_cons]
    by_cases ha : a = prev
    · rw [if_pos (.inr (by simp [ha])), ih, List.find?_cons_of_neg (by simp [ha])]
    · rw [if_neg (by simp [ha]), List.find?_cons_of_pos (by simp [ha])]
      exact addAnchors_two anchors prev a

/-- The recent events of other nodes. -/
def otherCandidates (n : Node) (prev : String) : List String :=
  (n.storage.listRecentEvents.filter fun event =>
    decide (event.source ≠ n.config.nodeId ∧ event.id ≠ prev)).map Event.id

/-- The second parent of an event that follows `prev`. -/
def secondParent (n : Node) (prev : String) (pick : Nat) : Option String :=
  if (otherCandidates n prev).isEmpty then n.anchorIds.find? (· ≠ prev)
  else (otherCandidates n prev)[pick % (otherCandidates n prev).length]?

theorem emitParents_newest (pick : Nat)
    (h : (n.storage.latestEventBySource n.config.nodeId).map Event.id = some prev) :
    n.emitParents pick = prev :: (secondParent n prev pick).toList := by
  have hothers : (n.storage.listRecentEvents.filter fun event =>
      decide (event.source ≠ n.config.nodeId ∧ event.id ∉ [prev])).map Event.id =
      otherCandidates n prev := by
    simp [otherCandidates]
  unfold Node.emitParents secondParent
  rw [h]
  dsimp only [Option.toList_some]
  rw [hothers]
  by_cases hempty : (otherCandidates n prev).isEmpty = true
  · rw [if_pos hempty, if_pos hempty, Option.toList_none, List.append_nil, addAnchors_one]
    apply List.take_of_length_le
    cases n.anchorIds.find? (· ≠ prev) <;> simp
  · rw [if_neg hempty, if_neg hempty]
    have hpos : 0 < (otherCandidates n prev).length := by
      rw [List.length_pos_iff]
      simpa using hempty
    rw [List.getElem?_eq_getElem (Nat.mod_lt _ hpos)]
    dsimp only [Option.toList_some, List.singleton_append]
    rw [addAnchors_two]
    rfl

theorem mem_otherCandidates {x : String} : x ∈ otherCandidates n prev ↔
    ∃ e ∈ n.storage.listRecentEvents, e.source ≠ n.config.nodeId ∧ e.id ≠ prev ∧ e.id = x := by
  simp [otherCandidates, and_assoc]

theorem listRecentEvents_stored {s : DAGStorage} {limit : Nat} {e : Event}
    (he : e ∈ s.listRecentEvents limit) : e.id ∈ s.ids := by
  unfold DAGStorage.listRecentEvents DAGStorage.recentRows at he
  obtain ⟨row, hrow, rfl⟩ := List.mem_map.1 he
  have hmem : row ∈ s.events :=
    List.mem_reverse.1 ((List.mem_insertionSort _).1 (List.mem_of_mem_take hrow))
  exact List.mem_map_of_mem (f := fun row : EventRow => row.event.id) hmem

theorem secondParent_ne {pick : Nat} {x : String} (h : secondParent n prev pick = some x) : x ≠ prev := by
  unfold secondParent at h
  split at h
  · simpa using List.find?_some h
  · obtain ⟨e, -, -, hne, rfl⟩ := mem_otherCandidates.1 (List.mem_of_getElem? h)
    exact hne

/-- With a recent event of another node the second parent is stored;
otherwise it is when the anchor is. -/
theorem secondParent_stored (n : Node) (prev : String) (pick : Nat) :
    (∀ x, secondParent n prev pick = some x → x ∈ n.storage.ids) ↔
    (∃ e ∈ n.storage.listRecentEvents, e.source ≠ n.config.nodeId ∧ e.id ≠ prev) ∨
      ∀ a, n.anchorIds.find? (· ≠ prev) = some a → a ∈ n.storage.ids := by
  have hothers : (∃ e ∈ n.storage.listRecentEvents, e.source ≠ n.config.nodeId ∧ e.id ≠ prev) ↔
      (otherCandidates n prev).isEmpty = false := by
    simp [otherCandidates]
  unfold secondParent
  rw [hothers]
  cases hempty : (otherCandidates n prev).isEmpty with
  | true => simp
  | false =>
    simp only [Bool.false_eq_true, if_false, true_or, iff_true]
    intro x hx
    obtain ⟨e, he, -, -, rfl⟩ := mem_otherCandidates.1 (List.mem_of_getElem? hx)
    exact listRecentEvents_stored he

end Parents

/-! ## The newest row -/

/-- The newest row of a source: no row before it is later, every row after it
is earlier. -/
theorem latestEventBySource_eq {s : DAGStorage} (hclock : ∀ row ∈ s.events, row.createdAt ≠ .nan)
    {source x : String} : (s.latestEventBySource source).map Event.id = some x ↔
      ∃ pre row post, s.events = pre ++ row :: post ∧ row.event.id = x ∧ row.event.source = source ∧
        (∀ r ∈ pre, r.event.source = source → Flt.lt row.createdAt r.createdAt = false) ∧
        ∀ r ∈ post, r.event.source = source → Flt.lt r.createdAt row.createdAt = true := by
  have hclock' : ∀ row ∈ s.events.reverse, row.createdAt ≠ .nan := fun row hrow =>
    hclock row (List.mem_reverse.1 hrow)
  have hfind : ∀ row, s.recentRows.find? (fun row => row.event.source = source) = some row ↔
      ∃ post pre, s.events.reverse = post ++ row :: pre ∧ decide (row.event.source = source) = true ∧
        (∀ r ∈ post, decide (r.event.source = source) = true →
          ¬ Flt.lt r.createdAt row.createdAt = false) ∧
        ∀ r ∈ pre, decide (r.event.source = source) = true →
          Flt.lt row.createdAt r.createdAt = false := by
    intro row
    apply find?_insertionSort
    · intro a _ b _
      cases hab : Flt.lt a.createdAt b.createdAt with
      | false => exact .inl rfl
      | true => exact .inr (Flt.lt_asymm hab)
    · intro a ha b hb c hc hab hbc
      exact Flt.not_lt_trans (hclock' a ha) (hclock' b hb) (hclock' c hc) hab hbc
  unfold DAGStorage.latestEventBySource
  rw [Option.map_map, Option.map_eq_some_iff]
  simp only [hfind, decide_eq_true_eq, Bool.not_eq_false]
  constructor
  · intro h
    obtain ⟨row, ⟨post, pre, hevents, hsource, hpost, hpre⟩, rfl⟩ := h
    refine ⟨pre.reverse, row, post.reverse, ?_, rfl, hsource, fun r hr => hpre r (List.mem_reverse.1 hr),
      fun r hr => hpost r (List.mem_reverse.1 hr)⟩
    rw [← List.reverse_reverse s.events, hevents]
    simp
  · intro h
    obtain ⟨pre, row, post, hevents, rfl, hsource, hpre, hpost⟩ := h
    refine ⟨row, ⟨post.reverse, pre.reverse, ?_, hsource, fun r hr => hpost r (List.mem_reverse.1 hr),
      fun r hr => hpre r (List.mem_reverse.1 hr)⟩, rfl⟩
    rw [hevents]
    simp

/-! ## Runs -/

/-- The node, with the genesis event it wrote and the event it emitted last. -/
structure Chain where
  node : Node
  genesis : Option String := none
  last : Option String := none

/-- The clock is read as a number; `checkpoint` is what the other operations
make of the checkpoints. -/
inductive ChainAction where
  | emit (cls : EventClass) (payload : Json) (ts : Flt) (now : ℚ) (pick : Nat)
  | ingest (envelopes : List (Envelope × ℚ))
  | retain (now : ℚ)
  | restart (identity : List (String × Json)) (ts : Flt) (now : ℚ)
  | checkpoint (table : Dict Int CheckpointRow)

namespace Chain

/-- The event the next one is to follow. -/
def previous (s : Chain) : Option String := s.last.or s.genesis

/-- An event is emitted when its row has been written. -/
def step (s : Chain) : ChainAction → Chain
  | .emit cls payload ts now pick =>
    let x := (s.node.nextEvent cls payload ts pick).id
    let n := (s.node.emitEvent cls payload ts (.fin now) pick).node
    { s with node := n, last := if x ∉ s.node.storage.ids ∧ x ∈ n.storage.ids then some x else s.last }
  | .ingest envelopes =>
    { s with node := (s.node.ingestEnvelopes (envelopes.map fun p => (p.1, .fin p.2))).node }
  | .retain now => { s with node := (s.node.runRetentionOnce (.fin now)).node }
  | .restart identity ts now =>
    let x := (s.node.genesisEvent identity ts).id
    let n := (s.node.restart identity ts (.fin now)).node
    { s with
      node := n
      genesis := if x ∉ s.node.storage.ids ∧ x ∈ n.storage.ids then some x else s.genesis }
  | .checkpoint table => { s with node := s.node.withCheckpoints table }

/-- A node on an empty database. -/
def fresh (config : NodeConfig) (membership : Membership) : Chain :=
  { node := { config := config, membership := membership } }

/-- The event continues the chain: it has one or two parents, all of them
stored, and its self parent is the event before it. -/
structure Continues (s : Chain) (event : Event) : Prop where
  parents : event.parents.length = 1 ∨ event.parents.length = 2
  distinct : event.parents.Nodup
  stored : ∀ p ∈ event.parents, p ∈ s.node.storage.ids
  selfParent : ∃ row ∈ s.node.storage.events, row.event.source = s.node.config.nodeId ∧
    s.previous = some row.event.id ∧ event.selfParentId = some row.event.id

/-- What an emission needs: the event before it is stored, every other event
under the node's name has an earlier time, or the same one and an earlier row;
and without a recent event of another node, the anchor it takes is stored. -/
structure Current (s : Chain) : Prop where
  newest : ∃ pre row post, s.node.storage.events = pre ++ row :: post ∧
    s.previous = some row.event.id ∧ row.event.source = s.node.config.nodeId ∧
    (∀ r ∈ pre, r.event.source = s.node.config.nodeId → Flt.lt row.createdAt r.createdAt = false) ∧
    ∀ r ∈ post, r.event.source = s.node.config.nodeId → Flt.lt r.createdAt row.createdAt = true
  anchor : (∃ e ∈ s.node.storage.listRecentEvents, e.source ≠ s.node.config.nodeId ∧
      s.previous ≠ some e.id) ∨
    ∀ a, s.node.anchorIds.find? (fun a => s.previous ≠ some a) = some a → a ∈ s.node.storage.ids

section Emission
variable {s : Chain} {cls : EventClass} {payload : Json} {ts : Flt} {pick : Nat}

theorem nextEvent_selfParent : (s.node.nextEvent cls payload ts pick).selfParentId =
    (s.node.emitParents pick)[0]? := Option.or_self

theorem nextEvent_parents : (s.node.nextEvent cls payload ts pick).parents = s.node.emitParents pick := rfl

/-- A node with a row takes the newest of its rows for the first parent. -/
theorem Continues.current (hclock : ∀ row ∈ s.node.storage.events, row.createdAt ≠ .nan)
    (h : s.Continues (s.node.nextEvent cls payload ts pick)) : s.Current := by
  obtain ⟨own, hown, hsource, hprev, hself⟩ := h.selfParent
  obtain ⟨e, he⟩ : ∃ e, s.node.storage.latestEventBySource s.node.config.nodeId = some e := by
    unfold DAGStorage.latestEventBySource
    rw [← Option.isSome_iff_exists, Option.isSome_map, List.find?_isSome]
    exact ⟨own, (List.mem_insertionSort _).2 (List.mem_reverse.2 hown), decide_eq_true hsource⟩
  have hlatest : (s.node.storage.latestEventBySource s.node.config.nodeId).map Event.id = some e.id := by
    rw [he, Option.map_some]
  have heq := emitParents_newest pick hlatest
  rw [nextEvent_selfParent, heq] at hself
  have hid : e.id = own.event.id := Option.some.inj hself
  rw [hid] at hlatest heq
  constructor
  · obtain ⟨pre, row, post, hevents, hrow, hsrc, hpre, hpost⟩ :=
      (latestEventBySource_eq hclock).1 hlatest
    exact ⟨pre, row, post, hevents, by rw [hrow, hprev], hsrc, hpre, hpost⟩
  · have hstored := h.stored
    rw [nextEvent_parents, heq] at hstored
    have hsecond := (secondParent_stored s.node own.event.id pick).1 fun x hx =>
      hstored x (List.mem_cons_of_mem _ (by rw [hx]; exact List.mem_singleton_self x))
    rw [hprev]
    simpa [eq_comm] using hsecond

theorem Current.continues (hclock : ∀ row ∈ s.node.storage.events, row.createdAt ≠ .nan)
    (h : s.Current) : s.Continues (s.node.nextEvent cls payload ts pick) := by
  obtain ⟨pre, row, post, hevents, hprev, hsrc, hpre, hpost⟩ := h.newest
  have hrow : row ∈ s.node.storage.events := by
    rw [hevents]
    exact List.mem_append_right pre List.mem_cons_self
  have heq := emitParents_newest pick
    ((latestEventBySource_eq hclock).2 ⟨pre, row, post, hevents, rfl, hsrc, hpre, hpost⟩)
  have hanchor := h.anchor
  rw [hprev] at hanchor
  have hsecond := (secondParent_stored s.node row.event.id pick).2
    (by simpa [eq_comm] using hanchor)
  refine ⟨?_, ?_, ?_, row, hrow, hsrc, hprev, by rw [nextEvent_selfParent, heq]; rfl⟩
  · rw [nextEvent_parents, heq]
    cases secondParent s.node row.event.id pick <;> simp
  · rw [nextEvent_parents, heq]
    cases hx : secondParent s.node row.event.id pick with
    | none => simp
    | some x => simpa [eq_comm] using secondParent_ne hx
  · intro p hp
    rw [nextEvent_parents, heq] at hp
    rcases List.mem_cons.1 hp with rfl | hp
    · exact List.mem_map_of_mem (f := fun row : EventRow => row.event.id) hrow
    · exact hsecond p (Option.mem_toList.1 hp)

/-- **What an emission needs.** The next event continues the chain if and
only if the store is current. -/
theorem continues_iff (hclock : ∀ row ∈ s.node.storage.events, row.createdAt ≠ .nan) :
    s.Continues (s.node.nextEvent cls payload ts pick) ↔ s.Current :=
  ⟨Continues.current hclock, Current.continues hclock⟩

end Emission

/-! ## Every reading is a time -/

/-- No row has NaN for its time. -/
def Timed (s : DAGStorage) : Prop := ∀ row ∈ s.events, row.createdAt ≠ .nan

theorem Timed.storeEnvelope {s s' : DAGStorage} (h : Timed s) {envelope : Envelope} {ts : Option Flt}
    {now : Flt} {stored : Bool} (hnow : now ≠ .nan)
    (hs : s.storeEnvelope envelope ts now = .ok (s', stored)) : Timed s' := by
  have hunfilled : DAGStorage.Unfilled EventRow.createdAt := fun _ _ _ _ => rfl
  intro row hrow
  rcases DAGStorage.storeEnvelope_row hunfilled hs hrow with ⟨row₀, hrow₀, htime⟩ | htime
  · rw [← htime]
    exact h row₀ hrow₀
  · rw [htime]
    exact hnow

/-- What the choice of the self parent reads of a row. -/
def stamp (row : EventRow) : String × String × Flt := (row.event.id, row.event.source, row.createdAt)

theorem recompute_stamps (n : Node) :
    n.recomputeConsensus.node.storage.events.map stamp = n.storage.events.map stamp := by
  obtain ⟨states, hnode⟩ := n.recomputeConsensus_node
  rw [hnode]
  exact DAGStorage.replaceConsensusState_map (fun _ _ => rfl) n.storage states

theorem Timed.recompute {n : Node} (h : Timed n.storage) : Timed n.recomputeConsensus.node.storage := by
  intro row hrow
  obtain ⟨row₀, hrow₀, hstamp⟩ := DAGStorage.exists_row (recompute_stamps n) hrow
  have htime : row₀.createdAt = row.createdAt := congrArg (fun t => t.2.2) hstamp
  rw [← htime]
  exact h row₀ hrow₀

theorem Timed.persistEnvelope {n : Node} (h : Timed n.storage) (envelope : Envelope) {now : Flt}
    (hnow : now ≠ .nan) : Timed (n.persistEnvelope envelope now).node.storage := by
  unfold Node.persistEnvelope
  split
  · exact h
  · rename_i hs
    exact h.storeEnvelope hnow hs

theorem Timed.ingestEnvelopes {n : Node} (h : Timed n.storage) {envelopes : List (Envelope × Flt)}
    (hnow : ∀ p ∈ envelopes, p.2 ≠ .nan) : Timed (n.ingestEnvelopes envelopes).node.storage :=
  Node.ingestEnvelopes_ind (P := fun n => Timed n.storage) (Q := fun p => p.2 ≠ .nan)
    (fun _ p hp h => h.persistEnvelope p.1 hp) (fun _ h => h.recompute) hnow h

theorem Timed.emitEvent {n : Node} (h : Timed n.storage) (cls : EventClass) (payload : Json)
    (ts now : Flt) (hnow : now ≠ .nan) (pick : Nat) :
    Timed (n.emitEvent cls payload ts now pick).node.storage := by
  rcases emitEvent_cases n cls payload ts now pick with ⟨hsame, -⟩ | ⟨s, stored, hs, hsame⟩
  · rw [hsame.storage]
    exact h
  · rw [hsame.storage]
    exact Timed.recompute (n := { n with storage := s }) (h.storeEnvelope hnow hs)

theorem Timed.restart {n : Node} (h : Timed n.storage) (identity : List (String × Json)) (ts now : Flt)
    (hnow : now ≠ .nan) : Timed (n.restart identity ts now).node.storage := by
  unfold Node.restart Node.bootstrapGenesis
  dsimp only
  split
  · split
    · exact h
    · rename_i hs
      exact h.storeEnvelope hnow hs
  · exact h

theorem step_timed (s : Chain) (a : ChainAction) (h : Timed s.node.storage) :
    Timed (s.step a).node.storage := by
  cases a with
  | emit cls payload ts now pick => exact h.emitEvent cls payload ts (.fin now) (by simp) pick
  | ingest envelopes =>
    refine h.ingestEnvelopes fun p hp => ?_
    obtain ⟨q, -, rfl⟩ := List.mem_map.1 hp
    simp
  | retain now =>
    intro row hrow
    have hevents : (s.step (.retain now)).node.storage.events = _ := runRetentionOnce_events
    rw [hevents] at hrow
    exact h row (List.mem_filter.1 hrow).1
  | restart identity ts now => exact h.restart identity ts (.fin now) (by simp)
  | checkpoint table => exact h

/-- An emission takes place in a current store. -/
def EmitsCurrent (s : Chain) : ChainAction → Prop
  | .emit .. => s.Current
  | _ => True

/-- **The chain is not forked.** In a run from the empty database every
emitted event continues the chain if and only if the store is current at
every emission. -/
theorem chain_unforked_iff (config : NodeConfig) (membership : Membership) (actions : List ChainAction) :
    Admits step EmitsCurrent (fresh config membership) actions ↔
      ∀ pre cls payload ts now pick, pre ++ [.emit cls payload ts now pick] <+: actions →
        (run step (fresh config membership) pre).Continues
          ((run step (fresh config membership) pre).node.nextEvent cls payload ts pick) := by
  have htimed : ∀ pre, Timed (run step (fresh config membership) pre).node.storage := by
    intro pre
    have hany : Admits step (fun _ _ => True) (fresh config membership) pre :=
      admits_of_forall fun _ _ _ => trivial
    exact run_invariant (I := fun s => Timed s.node.storage) (fun s a h _ => step_timed s a h)
      (fun row hrow => absurd hrow List.not_mem_nil) hany
  rw [admits_iff_steps]
  constructor
  · intro h pre cls payload ts now pick hpre
    exact (continues_iff (htimed pre)).2 (h pre _ hpre)
  · intro h pre a hpre
    cases a with
    | emit cls payload ts now pick =>
      exact (continues_iff (htimed pre)).1 (h pre cls payload ts now pick hpre)
    | ingest envelopes => trivial
    | retain now => trivial
    | restart identity ts now => trivial
    | checkpoint table => trivial

/-! ## Clock readings that fork -/

section Fork
variable {s : Chain} {cls : EventClass} {payload : Json} {ts : Flt} {now : ℚ} {pick : Nat}

/-- An emission that is not refused appends its row. -/
theorem emitEvent_stamps (hnew : (s.node.nextEvent cls payload ts pick).id ∉ s.node.storage.ids)
    (hins : DAGStorage.insertError (s.node.nextEvent cls payload ts pick) = none) :
    (s.node.emitEvent cls payload ts (.fin now) pick).node.storage.events.map stamp =
      s.node.storage.events.map stamp ++
        [((s.node.nextEvent cls payload ts pick).id, s.node.config.nodeId, .fin now)] := by
  rcases emitEvent_cases s.node cls payload ts (.fin now) pick with ⟨-, hrefused⟩ | ⟨t, stored, ht, hsame⟩
  · exact absurd hins hrefused.2
  · have hnew' : (s.node.nextEnvelope cls payload ts pick).event.id ∉ s.node.storage.ids := hnew
    have hins' : DAGStorage.insertError (s.node.nextEnvelope cls payload ts pick).event = none := hins
    rw [DAGStorage.storeEnvelope_new hnew' hins'] at ht
    obtain ⟨rfl, -⟩ := Prod.mk.inj (Except.ok.inj ht)
    rw [hsame.storage, recompute_stamps]
    dsimp only
    rw [List.map_append]
    rfl

theorem step_emit_previous {x : String} (hx : (s.node.nextEvent cls payload ts pick).id = x)
    (hnew : x ∉ s.node.storage.ids)
    (hmem : x ∈ (s.node.emitEvent cls payload ts (.fin now) pick).node.storage.ids) :
    (s.step (.emit cls payload ts now pick)).previous = some x := by
  subst hx
  exact congrArg (fun last => Option.or last s.genesis) (if_pos ⟨hnew, hmem⟩)

/-- After an emission whose row is earlier than another one of the node, the
store is not current. -/
theorem not_current_of_late (hnew : (s.node.nextEvent cls payload ts pick).id ∉ s.node.storage.ids)
    (hins : DAGStorage.insertError (s.node.nextEvent cls payload ts pick) = none)
    {late : EventRow} (hlate : late ∈ s.node.storage.events)
    (hsource : late.event.source = s.node.config.nodeId)
    (htime : Flt.lt (.fin now) late.createdAt = true) :
    ¬ (s.step (.emit cls payload ts now pick)).Current := by
  set x := (s.node.nextEvent cls payload ts pick).id with hx
  set n := (s.node.emitEvent cls payload ts (.fin now) pick).node with hn
  have hstamps : n.storage.events.map stamp = s.node.storage.events.map stamp ++
    [(x, s.node.config.nodeId, .fin now)] := emitEvent_stamps hnew hins
  have hids : n.storage.ids = s.node.storage.ids ++ [x] := by
    have := congrArg (List.map Prod.fst) hstamps
    simpa [DAGStorage.ids, stamp, Function.comp_def] using this
  have hconfig : n.config = s.node.config := (Node.emitEvent_same ..).config
  have hprevious : (s.step (.emit cls payload ts now pick)).previous = some x := by
    refine step_emit_previous hx.symm hnew ?_
    rw [← hn, hids]
    exact List.mem_append_right _ (List.mem_singleton_self x)
  intro h
  obtain ⟨pre, row, post, hevents, hprev, -, hpre, -⟩ := h.newest
  change n.storage.events = pre ++ row :: post at hevents
  change ∀ r ∈ pre, r.event.source = n.config.nodeId → _ at hpre
  have hrow : row.event.id = x := Option.some.inj (hprev.symm.trans hprevious)
  -- the row of the event is not an old one, so the old rows stand before it
  have hfresh : stamp row ∉ s.node.storage.events.map stamp := by
    intro hmem
    obtain ⟨r, hr, hstamp⟩ := List.mem_map.1 hmem
    have hid : r.event.id = x := (congrArg Prod.fst hstamp).trans hrow
    exact hnew (hid ▸ List.mem_map_of_mem (f := fun row : EventRow => row.event.id) hr)
  rw [hevents, List.map_append, List.map_cons] at hstamps
  obtain ⟨hold, hlast⟩ := eq_of_append_cons hstamps hfresh
  have hnow : row.createdAt = .fin now := congrArg (fun t => t.2.2) hlast
  have hlate' : stamp late ∈ pre.map stamp := hold ▸ List.mem_map_of_mem hlate
  obtain ⟨r, hr, hstamp⟩ := List.mem_map.1 hlate'
  have hsrc : r.event.source = n.config.nodeId := by
    rw [hconfig, ← hsource]
    exact congrArg (fun t => t.2.1) hstamp
  have hlt := hpre r hr hsrc
  have hcreated : r.createdAt = late.createdAt := congrArg (fun t => t.2.2) hstamp
  rw [hnow, hcreated, htime] at hlt
  cases hlt

end Fork

section Fields
variable (n : Node) (cls : EventClass) (payload : Json) (ts : Flt) (pick : Nat)

theorem nextEvent_id : (n.nextEvent cls payload ts pick).id =
    computeEventId (Event.header cls n.config.nodeId ts (n.nextEvent cls payload ts pick).vclock
      (n.emitParents pick)) payload := rfl

theorem nextEvent_vclock : (n.nextEvent cls payload ts pick).vclock =
    incrementClock ((n.emitParents pick).foldl (fun clock parentId =>
      match n.storage.getEvent parentId with
      | some parent => mergeClock clock parent.vclock
      | none => clock) n.vectorClock) n.config.nodeId := rfl

/-- SQLite takes an event with a small clock. -/
theorem nextEvent_insertError (hclock : fitsInt64 ((n.nextEvent cls payload ts pick).vclock.map
    Prod.snd).sum = true) (hts : ts ≠ .nan) :
    DAGStorage.insertError (n.nextEvent cls payload ts pick) = none := by
  have hlamport : (n.nextEvent cls payload ts pick).lamportTs =
    some ((n.nextEvent cls payload ts pick).vclock.map Prod.snd).sum := rfl
  have hround : (n.nextEvent cls payload ts pick).round = none := rfl
  have hreceived : (n.nextEvent cls payload ts pick).roundReceived = none := rfl
  have htime : (n.nextEvent cls payload ts pick).tsLocal = ts := rfl
  unfold DAGStorage.insertError
  rw [hlamport, hround, hreceived, htime]
  simp [hclock, hts]

end Fields

/-- A cluster of one node, and its first start. -/
def started : Chain :=
  (fresh { nodeId := "a" } ⟨[⟨"a", "self:a", "node", true⟩], ""⟩).step (.restart [] (.fin 0) 10)

/-- The characters of `compute_event_id`. -/
theorem computeEventId_chars (header payload : Json) : computeEventId header payload =
    String.ofList (Sha256.hexChars (Sha256.digest (Sha256.encodeChars
      (canonicalChars header ++ [':', ':'] ++ canonicalChars payload)))) := by
  have htext : canonicalJson header ++ "::" ++ canonicalJson payload =
      String.ofList (canonicalChars header ++ [':', ':'] ++ canonicalChars payload) := by
    unfold canonicalJson
    rw [String.ofList_append, String.ofList_append]
  unfold computeEventId Sha256.hexdigest Sha256.hex
  rw [htext, Sha256.encode_ofList]

/-- The genesis id, by its characters. -/
def genesisChars : List Char := Sha256.hexChars (Sha256.digest (Sha256.encodeChars
  (canonicalChars (Event.header .C "a" (.fin 0) [] []) ++ [':', ':'] ++
    canonicalChars (.obj [("anchor", .int 0), ("node", .str "a"), ("genesis", .bool true),
      ("genesis_kind", .str "node_identity")]))))

def genesisId : String := String.ofList genesisChars

theorem genesisEvent_id : (started.node.genesisEvent [] (.fin 0)).id = genesisId :=
  computeEventId_chars _ _

theorem started_ids : started.node.storage.ids = [genesisId] :=
  congrArg (fun x => [x]) genesisEvent_id

theorem started_parents : started.node.emitParents 0 = [genesisId] := by
  have hlatest : (started.node.storage.latestEventBySource started.node.config.nodeId).map Event.id =
      some genesisId := congrArg some genesisEvent_id
  have hanchors : started.node.anchorIds = [genesisId] := congrArg (fun x => [x]) genesisEvent_id
  have hothers : otherCandidates started.node genesisId = [] := rfl
  rw [emitParents_newest 0 hlatest]
  simp [secondParent, hothers, hanchors]

/-- The node's first event. -/
def firstEvent : Event := started.node.nextEvent .C (.obj []) (.fin 0) 0

theorem firstEvent_vclock : firstEvent.vclock = [("a", 1)] := by
  rw [firstEvent, nextEvent_vclock, started_parents, List.foldl_cons, List.foldl_nil]
  split
  · rename_i parent hget
    have hvclock : parent.vclock = [] := by
      unfold DAGStorage.getEvent at hget
      obtain ⟨row, hrow, rfl⟩ := Option.map_eq_some_iff.1 hget
      obtain rfl := List.mem_singleton.1 (List.mem_of_find?_eq_some hrow)
      rfl
    rw [hvclock]
    rfl
  · rfl

theorem firstEvent_insertError : DAGStorage.insertError firstEvent = none := by
  refine nextEvent_insertError _ _ _ _ _ ?_ nofun
  change fitsInt64 (firstEvent.vclock.map Prod.snd).sum = true
  rw [firstEvent_vclock]
  rfl

/-- The first event has another id than the genesis event. -/
theorem firstEvent_new : firstEvent.id ∉ started.node.storage.ids := by
  have hid : firstEvent.id =
      computeEventId (Event.header .C "a" (.fin 0) [("a", 1)] [genesisId]) (.obj []) := by
    have hclock := firstEvent_vclock
    rw [firstEvent] at hclock ⊢
    rw [nextEvent_id, hclock, started_parents]
    rfl
  rw [hid, started_ids, computeEventId_chars, List.mem_singleton]
  intro h
  have hchars := congrArg String.toList h
  rw [genesisId, String.toList_ofList, String.toList_ofList] at hchars
  revert hchars
  decide +kernel

/-- The clock is set back between the start and the first event. -/
def setBack : List ChainAction :=
  [.restart [] (.fin 0) 10, .emit .C (.obj []) (.fin 0) 5 0, .emit .C (.obj []) (.fin 0) 20 0]

/-- The second event does not follow the first one. -/
theorem clock_set_back_forks : ¬ ∀ pre cls payload ts now pick,
    pre ++ [.emit cls payload ts now pick] <+: setBack →
      (run step (fresh { nodeId := "a" } ⟨[⟨"a", "self:a", "node", true⟩], ""⟩) pre).Continues
        ((run step (fresh { nodeId := "a" } ⟨[⟨"a", "self:a", "node", true⟩], ""⟩) pre).node.nextEvent
          cls payload ts pick) := by
  intro h
  have hcont := h [.restart [] (.fin 0) 10, .emit .C (.obj []) (.fin 0) 5 0] .C (.obj []) (.fin 0) 20 0
    (List.prefix_refl _)
  have hrun : run step (fresh { nodeId := "a" } ⟨[⟨"a", "self:a", "node", true⟩], ""⟩)
      [.restart [] (.fin 0) 10, .emit .C (.obj []) (.fin 0) 5 0] =
      started.step (.emit .C (.obj []) (.fin 0) 5 0) := by
    unfold started
    rw [run, List.foldl_cons, List.foldl_cons, List.foldl_nil]
  rw [hrun] at hcont
  have htimed : Timed started.node.storage := by
    intro row hrow
    obtain rfl := List.mem_singleton.1 hrow
    intro h
    cases h
  have hcurrent := (continues_iff (step_timed started _ htimed)).1 hcont
  exact not_current_of_late firstEvent_new firstEvent_insertError List.mem_cons_self rfl rfl hcurrent

end Chain
end Mdrj.L4
