import Mdrj.Core.Runs
import Mdrj.L1Encoding.Reading
import Mdrj.L4Node.SelfChain
import Mdrj.L5Cluster.ClockOrder

/-!
# Vector clocks and causality

A group of any number of nodes that emit, exchange envelopes and restart.
The group keeps a log of the events its nodes have made; an envelope of a
logged event may be delivered to any node, at any time and any number of
times, or never.

The clock of a node is lost in a restart, the parents of its next event are
read from the database. What keeps clocks and graph together is that the
clocks of the stored parents are merged into the clock of the new event
before it is incremented: along an edge no entry goes down, and the entry of
the author goes up.

Results:
* `ancestor_clock_before`: in every state of every run the clock of an
  ancestor is before the clock of its descendant (or SHA-256 collides on two
  of the logged events, as links are ids).
-/
namespace Mdrj.L5
open Relation Mdrj.Core Mdrj.L1 Mdrj.L3 Mdrj.L4

/-! ## The group -/

structure NodeGroup (ι : Type) where
  nodes : ι → Node
  genesis : List Event := []   -- the events made by `_bootstrap_genesis`
  emitted : List Event := []   -- the events made by `emit_event`

namespace NodeGroup
variable {ι : Type}

/-- The log. -/
def events (s : NodeGroup ι) : List Event := s.genesis ++ s.emitted

def setNode [DecidableEq ι] (s : NodeGroup ι) (i : ι) (n : Node) : NodeGroup ι :=
  { s with nodes := fun j => if j = i then n else s.nodes j }

/-- An event on the way: the id and the clock are those of its author. What
the other fields hold makes no difference here. -/
def Carries (event logged : Event) : Prop := event.id = logged.id ∧ event.vclock.Perm logged.vclock

instance (event logged : Event) : Decidable (Carries event logged) := instDecidableAnd

inductive Act (ι : Type) where
  | emit (i : ι) (cls : EventClass) (payload : Json) (ts now : Flt) (pick : Nat)
  | deliver (i : ι) (envelopes : List (Envelope × Flt))
  | restart (i : ι) (identity : List (String × Json)) (ts now : Flt)

/-- Only envelopes of logged events are delivered. -/
def step [DecidableEq ι] (s : NodeGroup ι) : Act ι → NodeGroup ι
  | .emit i cls payload ts now pick =>
    { s.setNode i ((s.nodes i).emitEvent cls payload ts now pick).node with
      emitted := s.emitted ++ [(s.nodes i).nextEvent cls payload ts pick] }
  | .deliver i envelopes =>
    if ∀ p ∈ envelopes, ∃ logged ∈ s.events, Carries p.1.event logged then
      s.setNode i ((s.nodes i).ingestEnvelopes envelopes).node
    else s
  | .restart i identity ts now =>
    { s.setNode i ((s.nodes i).restart identity ts now).node with
      genesis := s.genesis ++
        if (s.nodes i).storage.events.isEmpty then [(s.nodes i).genesisEvent identity ts] else [] }

/-- Nodes before their first start. -/
def fresh (config : ι → NodeConfig) (membership : ι → Membership) : NodeGroup ι where
  nodes i := { config := config i, membership := membership i }

/-- An edge of the graph of all events. -/
def Parent (s : NodeGroup ι) (e f : Event) : Prop := e ∈ s.events ∧ f ∈ s.events ∧ e.id ∈ f.parents

def Ancestor (s : NodeGroup ι) : Event → Event → Prop := TransGen s.Parent

end NodeGroup

/-! ## The parents of the next event are stored -/

section Stored
variable {n : Node}

theorem mem_allEvents {s : DAGStorage} {e : Event} (h : e ∈ s.allEvents) : e.id ∈ s.ids := by
  unfold DAGStorage.allEvents at h
  obtain ⟨row, hrow, rfl⟩ := List.mem_map.1 h
  exact List.mem_map.2 ⟨row, (List.mem_insertionSort _).1 hrow, rfl⟩

theorem latestEventBySource_stored {s : DAGStorage} {source : String} {e : Event}
    (h : s.latestEventBySource source = some e) : e.id ∈ s.ids := by
  unfold DAGStorage.latestEventBySource DAGStorage.recentRows at h
  obtain ⟨row, hrow, rfl⟩ := Option.map_eq_some_iff.1 h
  have hmem := (List.mem_insertionSort _).1 (List.mem_of_find?_eq_some hrow)
  exact List.mem_map.2 ⟨row, List.mem_reverse.1 hmem, rfl⟩

theorem anchorIds_stored (h : ∀ a ∈ n.anchors, a ∈ n.storage.ids) : ∀ a ∈ n.anchorIds, a ∈ n.storage.ids := by
  -- the loop over the oldest events collects ids of these events
  have hloop : ∀ (events : List Event) (anchors : List String), (∀ e ∈ events, e.id ∈ n.storage.ids) →
      (∀ a ∈ anchors, a ∈ n.storage.ids) → ∀ a ∈ events.foldl (fun anchors event =>
        if Node.isGenesis event ∧ event.id ∉ anchors then anchors ++ [event.id] else anchors) anchors,
      a ∈ n.storage.ids := by
    intro events
    induction events with
    | nil => intro anchors _ hanchors; exact hanchors
    | cons e events ih =>
      intro anchors hevents hanchors
      rw [List.forall_mem_cons] at hevents
      rw [List.foldl_cons]
      refine ih _ hevents.2 ?_
      split
      · intro a ha
        rcases List.mem_append.1 ha with ha | ha
        · exact hanchors a ha
        · rw [List.mem_singleton.1 ha]
          exact hevents.1
      · exact hanchors
  have holdest : ∀ e ∈ n.storage.listEvents 20, e.id ∈ n.storage.ids :=
    fun e he => mem_allEvents (List.mem_of_mem_take he)
  unfold Node.anchorIds
  split
  · exact h
  · dsimp only
    split
    · intro a ha
      obtain ⟨e, he, rfl⟩ := List.mem_map.1 ha
      exact holdest e (List.mem_of_mem_take he)
    · exact hloop _ [] holdest fun a ha => absurd ha List.not_mem_nil

theorem mem_addAnchors {anchors : List String} {x : String} : ∀ {parents : List String},
    x ∈ anchors.foldl (fun parents anchor =>
      if 2 ≤ parents.length ∨ anchor ∈ parents then parents else parents ++ [anchor]) parents →
    x ∈ parents ∨ x ∈ anchors := by
  induction anchors with
  | nil => intro parents h; exact .inl h
  | cons a anchors ih =>
    intro parents h
    rw [List.foldl_cons] at h
    rcases ih h with h | h
    · split at h
      · exact .inl h
      · rcases List.mem_append.1 h with h | h
        · exact .inl h
        · exact .inr (List.mem_singleton.1 h ▸ List.mem_cons_self)
    · exact .inr (List.mem_cons_of_mem _ h)

theorem emitParents_stored (h : ∀ a ∈ n.anchors, a ∈ n.storage.ids) (pick : Nat) :
    ∀ x ∈ n.emitParents pick, x ∈ n.storage.ids := by
  intro x hx
  unfold Node.emitParents at hx
  rcases mem_addAnchors (List.mem_of_mem_take hx) with hx | hx
  · rcases List.mem_append.1 hx with hx | hx
    · obtain ⟨e, he, rfl⟩ := Option.map_eq_some_iff.1 (Option.mem_toList.1 hx)
      exact latestEventBySource_stored he
    · split at hx
      · cases hx
      · obtain ⟨e, he, rfl⟩ := List.mem_map.1 (List.mem_of_getElem? (Option.mem_toList.1 hx))
        exact listRecentEvents_stored (List.mem_filter.1 he).1
  · exact anchorIds_stored h x hx

end Stored

/-! ## What a node knows -/

/-- The node works with logged events only. -/
structure Known (log : List Event) (n : Node) : Prop where
  clock : Counters n.vectorClock
  rows : ∀ row ∈ n.storage.events, ∃ logged ∈ log, NodeGroup.Carries row.event logged
  anchors : ∀ a ∈ n.anchors, a ∈ n.storage.ids

namespace Known
variable {log : List Event} {n : Node}

theorem mono (h : Known log n) {log' : List Event} (hlog : ∀ e ∈ log, e ∈ log') : Known log' n := by
  refine ⟨h.clock, fun row hrow => ?_, h.anchors⟩
  obtain ⟨e, he, hcarries⟩ := h.rows row hrow
  exact ⟨e, hlog e he, hcarries⟩

/-- The id and the clock of a row come from the row before, or with the
envelope. -/
theorem storeEnvelope_rows {s s' : DAGStorage} {envelope : Envelope} {ts : Option Flt} {now : Flt}
    {stored : Bool} (hs : s.storeEnvelope envelope ts now = .ok (s', stored)) {P : String → Dict String Int → Prop}
    (hrows : ∀ row ∈ s.events, P row.event.id row.event.vclock)
    (henv : P envelope.event.id envelope.event.vclock) :
    ∀ row ∈ s'.events, P row.event.id row.event.vclock := by
  have hunfilled : DAGStorage.Unfilled fun row => (row.event.id, row.event.vclock) := fun _ _ _ _ => rfl
  intro row hrow
  rcases DAGStorage.storeEnvelope_row hunfilled hs hrow with
    ⟨row₀, hrow₀, heq⟩ | heq
  · obtain ⟨hid, hvclock⟩ := Prod.mk.inj heq
    rw [← hid, ← hvclock]
    exact hrows row₀ hrow₀
  · obtain ⟨hid, hvclock⟩ := Prod.mk.inj heq
    rw [hid, hvclock]
    exact henv

theorem store (h : Known log n) {envelope : Envelope} {ts : Option Flt} {now : Flt} {storage : DAGStorage}
    {stored : Bool} (hs : n.storage.storeEnvelope envelope ts now = .ok (storage, stored))
    (henv : ∃ logged ∈ log, NodeGroup.Carries envelope.event logged) :
    Known log { n with storage := storage } := by
  refine ⟨h.clock, ?_, fun a ha => ?_⟩
  · exact storeEnvelope_rows (P := fun id vclock => ∃ logged ∈ log, id = logged.id ∧ vclock.Perm logged.vclock)
      hs h.rows henv
  · have hold := h.anchors a ha
    rcases DAGStorage.storeEnvelope_ids hs with ⟨-, -, hids⟩ | ⟨-, -, hids⟩
    · exact hids ▸ hold
    · exact hids ▸ List.mem_append_left _ hold

theorem persistEnvelope (h : Known log n) (envelope : Envelope)
    (henv : ∃ logged ∈ log, NodeGroup.Carries envelope.event logged) (now : Flt) :
    Known log (n.persistEnvelope envelope now).node := by
  unfold Node.persistEnvelope
  split
  · exact h
  · rename_i storage stored hs
    have hstore := h.store hs henv
    exact ⟨h.clock.merge _, hstore.rows, hstore.anchors⟩

theorem recompute (h : Known log n) : Known log n.recomputeConsensus.node := by
  obtain ⟨states, hnode⟩ := n.recomputeConsensus_node
  have hmap := DAGStorage.replaceConsensusState_map (f := fun row => (row.event.id, row.event.vclock))
    (fun _ _ => rfl) n.storage states
  rw [hnode]
  refine ⟨h.clock, fun row hrow => ?_, fun a ha => ?_⟩
  · obtain ⟨row₀, hrow₀, heq⟩ := DAGStorage.exists_row hmap hrow
    obtain ⟨hid, hvclock⟩ := Prod.mk.inj heq
    unfold NodeGroup.Carries
    rw [← hid, ← hvclock]
    exact h.rows row₀ hrow₀
  · have hold := h.anchors a ha
    rwa [← DAGStorage.replaceConsensusState_ids n.storage states] at hold

theorem ingestEnvelopes (h : Known log n) {envelopes : List (Envelope × Flt)}
    (henv : ∀ p ∈ envelopes, ∃ logged ∈ log, NodeGroup.Carries p.1.event logged) :
    Known log (n.ingestEnvelopes envelopes).node :=
  Node.ingestEnvelopes_ind (P := Known log)
    (Q := fun p => ∃ logged ∈ log, NodeGroup.Carries p.1.event logged)
    (fun _ p hp h => h.persistEnvelope p.1 hp p.2) (fun _ h => h.recompute) henv h

theorem emitEvent (h : Known log n) {cls : EventClass} {payload : Json} {ts : Flt} {pick : Nat}
    (hnew : n.nextEvent cls payload ts pick ∈ log) (now : Flt) :
    Known log (n.emitEvent cls payload ts now pick).node := by
  have hanchored : Known log { n with anchors := n.anchorIds } := ⟨h.clock, h.rows, anchorIds_stored h.anchors⟩
  exact Node.emitEvent_of_persist (P := Known log) (fun _ h => h.recompute)
    (fun _ h' => ⟨h.clock, h'.rows, h'.anchors⟩) (hanchored.persistEnvelope _ ⟨_, hnew, rfl, .refl _⟩ now)

theorem restart (h : Known log n) {identity : List (String × Json)} {ts : Flt}
    (hgenesis : n.storage.events.isEmpty = true → n.genesisEvent identity ts ∈ log) (now : Flt) :
    Known log (n.restart identity ts now).node := by
  have hblank : Known log { n with vectorClock := [], anchors := [] } :=
    ⟨.nil, h.rows, fun a ha => absurd ha List.not_mem_nil⟩
  unfold Node.restart Node.bootstrapGenesis
  dsimp only
  split
  · rename_i hempty
    split
    · exact hblank
    · rename_i storage stored hs
      have hstore := hblank.store hs ⟨_, hgenesis hempty, rfl, .refl _⟩
      refine ⟨hstore.clock, hstore.rows, fun a ha => ?_⟩
      rw [List.mem_singleton.1 ha]
      rcases DAGStorage.storeEnvelope_ids hs with ⟨hid, -, hids⟩ | ⟨-, -, hids⟩
      · exact hids ▸ hid
      · exact hids ▸ List.mem_append_right _ List.mem_cons_self
  · exact ⟨.nil, h.rows, anchorIds_stored hblank.anchors⟩

end Known

/-! ## Clocks grow along edges -/

section Edges
variable {log : List Event} {n : Node} {cls : EventClass} {payload : Json} {ts : Flt} {pick : Nat}

/-- The clocks of the parents are merged in. -/
theorem mergeParents_spec (find : String → Option Event) (parents : List String) : ∀ clock, Counters clock →
    ∃ merged, parents.foldl (fun clock parentId =>
      match find parentId with
      | some parent => mergeClock clock parent.vclock
      | none => clock) clock = merged ∧ Counters merged ∧
    (∀ key, clockAt clock key ≤ clockAt merged key) ∧
    ∀ x ∈ parents, ∀ parent, find x = some parent → ∀ key, clockAt parent.vclock key ≤ clockAt merged key := by
  induction parents with
  | nil =>
    intro clock h
    exact ⟨clock, rfl, h, fun _ => le_rfl, fun x hx => absurd hx List.not_mem_nil⟩
  | cons y parents ih =>
    intro clock h
    rw [List.foldl_cons]
    cases hy : find y with
    | none =>
      obtain ⟨merged, heq, hmerged, hle, hparents⟩ := ih clock h
      refine ⟨merged, heq, hmerged, hle, fun x hx parent hx' => ?_⟩
      rcases List.mem_cons.1 hx with rfl | hx
      · rw [hy] at hx'
        cases hx'
      · exact hparents x hx parent hx'
    | some q =>
      obtain ⟨merged, heq, hmerged, hle, hparents⟩ := ih (mergeClock clock q.vclock) (h.merge _)
      refine ⟨merged, heq, hmerged, fun key => (mergeClock_left _ _ key).trans (hle key),
        fun x hx parent hx' key => ?_⟩
      rcases List.mem_cons.1 hx with rfl | hx
      · rw [hy, Option.some.injEq] at hx'
        subst hx'
        exact (mergeClock_right h _ key).trans (hle key)
      · exact hparents x hx parent hx' key

theorem nextEvent_clock (h : Known log n) : ∃ merged,
    (n.nextEvent cls payload ts pick).vclock = incrementClock merged n.config.nodeId ∧ Counters merged ∧
      ∀ x ∈ n.emitParents pick, ∀ parent, n.storage.getEvent x = some parent →
        ∀ key, clockAt parent.vclock key ≤ clockAt merged key := by
  obtain ⟨merged, heq, hmerged, -, hparents⟩ :=
    mergeParents_spec n.storage.getEvent (n.emitParents pick) n.vectorClock h.clock
  refine ⟨merged, ?_, hmerged, hparents⟩
  rw [← heq]
  rfl

theorem nextEvent_counters (h : Known log n) : Counters (n.nextEvent cls payload ts pick).vclock := by
  obtain ⟨merged, hclock, hmerged, -⟩ := nextEvent_clock h
  rw [hclock]
  exact hmerged.increment _

/-- Each parent of a new event is a logged event with a smaller clock. -/
theorem nextEvent_edges (h : Known log n) (hlog : ∀ e ∈ log, Counters e.vclock) :
    ∀ x ∈ (n.nextEvent cls payload ts pick).parents, ∃ e ∈ log, e.id = x ∧
      Below e.vclock (n.nextEvent cls payload ts pick).vclock := by
  obtain ⟨merged, hclock, -, hparents⟩ := nextEvent_clock h
  intro x hx
  obtain ⟨parent, hget⟩ := getEvent_isSome (emitParents_stored h.anchors pick x hx)
  have hle := hparents x hx parent hget
  unfold DAGStorage.getEvent at hget
  obtain ⟨row, hrow, rfl⟩ := Option.map_eq_some_iff.1 hget
  have hid : row.event.id = x := by simpa using List.find?_some hrow
  obtain ⟨e, he, hcarries⟩ := h.rows row (List.mem_of_find?_eq_some hrow)
  refine ⟨e, he, hcarries.1.symm.trans hid, ?_⟩
  rw [hclock]
  exact (below_increment hle _).of_perm hcarries.2 (hlog e he)

end Edges

namespace NodeGroup
variable {ι : Type} {s : NodeGroup ι}

structure Inv (s : NodeGroup ι) : Prop where
  nodes : ∀ i, Known s.events (s.nodes i)
  counters : ∀ e ∈ s.events, Counters e.vclock
  hashed : ∀ e ∈ s.events, e.id = Sha256.hexdigest e.hashedText
  edges : ∀ f ∈ s.events, ∀ x ∈ f.parents, ∃ e ∈ s.events, e.id = x ∧ Below e.vclock f.vclock

theorem setNode_known [DecidableEq ι] {log : List Event} {i : ι} {n : Node} (h : ∀ j, Known log (s.nodes j))
    (hn : Known log n) : ∀ j, Known log ((s.setNode i n).nodes j) := by
  intro j
  unfold setNode
  dsimp only
  split
  · exact hn
  · exact h j

/-- The log grows by an event with edges of its own. -/
theorem Inv.grow (h : Inv s) {s' : NodeGroup ι} {new : Event} (hlog : ∀ e, e ∈ s'.events ↔ e ∈ s.events ∨ e = new)
    (hnodes : ∀ i, Known s'.events (s'.nodes i)) (hcounters : Counters new.vclock)
    (hhashed : new.id = Sha256.hexdigest new.hashedText)
    (hedges : ∀ x ∈ new.parents, ∃ e ∈ s.events, e.id = x ∧ Below e.vclock new.vclock) : Inv s' := by
  refine ⟨hnodes, fun e he => ?_, fun e he => ?_, fun f hf x hx => ?_⟩
  · rcases (hlog e).1 he with he | rfl
    · exact h.counters e he
    · exact hcounters
  · rcases (hlog e).1 he with he | rfl
    · exact h.hashed e he
    · exact hhashed
  · have hedge : ∃ e ∈ s.events, e.id = x ∧ Below e.vclock f.vclock := by
      rcases (hlog f).1 hf with hf | rfl
      · exact h.edges f hf x hx
      · exact hedges x hx
    obtain ⟨e, he, hid, hbelow⟩ := hedge
    exact ⟨e, (hlog e).2 (.inl he), hid, hbelow⟩

theorem step_inv [DecidableEq ι] (h : Inv s) (act : Act ι) : Inv (s.step act) := by
  cases act with
  | emit i cls payload ts now pick =>
    have hlog : ∀ e, e ∈ (s.step (.emit i cls payload ts now pick)).events ↔
        e ∈ s.events ∨ e = (s.nodes i).nextEvent cls payload ts pick := by
      intro e
      simp [step, setNode, events, or_assoc]
    have hold := fun j => (h.nodes j).mono fun e he => (hlog e).2 (.inl he)
    refine h.grow hlog ?_ (nextEvent_counters (h.nodes i)) rfl (nextEvent_edges (h.nodes i) h.counters)
    exact setNode_known hold ((hold i).emitEvent ((hlog _).2 (.inr rfl)) now)
  | deliver i envelopes =>
    unfold step
    dsimp only
    split
    · rename_i henv
      exact ⟨setNode_known h.nodes ((h.nodes i).ingestEnvelopes henv), h.counters, h.hashed, h.edges⟩
    · exact h
  | restart i identity ts now =>
    by_cases hempty : (s.nodes i).storage.events.isEmpty = true
    · have hlog : ∀ e, e ∈ (s.step (.restart i identity ts now)).events ↔
          e ∈ s.events ∨ e = (s.nodes i).genesisEvent identity ts := by
        intro e
        simp only [step, events, if_pos hempty, List.mem_append, List.mem_singleton, setNode]
        tauto
      have hold := fun j => (h.nodes j).mono fun e he => (hlog e).2 (.inl he)
      refine h.grow hlog ?_ .nil rfl fun x hx => absurd hx List.not_mem_nil
      exact setNode_known hold ((hold i).restart (fun _ => (hlog _).2 (.inr rfl)) now)
    · have hnode : Known s.events ((s.nodes i).restart identity ts now).node :=
        (h.nodes i).restart (fun he => absurd he hempty) now
      have hstep : s.step (.restart i identity ts now) =
          s.setNode i ((s.nodes i).restart identity ts now).node := by
        unfold step
        dsimp only
        rw [if_neg hempty, List.append_nil]
        rfl
      rw [hstep]
      exact ⟨setNode_known h.nodes hnode, h.counters, h.hashed, h.edges⟩

theorem fresh_inv (config : ι → NodeConfig) (membership : ι → Membership) :
    Inv (fresh config membership) where
  nodes _ := ⟨.nil, fun _ hrow => absurd hrow List.not_mem_nil, fun _ ha => absurd ha List.not_mem_nil⟩
  counters _ he := absurd he List.not_mem_nil
  hashed _ he := absurd he List.not_mem_nil
  edges _ hf := absurd hf List.not_mem_nil

/-- Two logged events with one digest and different texts. -/
def Collision (s : NodeGroup ι) : Prop :=
  ∃ e ∈ s.events, ∃ f ∈ s.events, Collides e.hashedText f.hashedText

/-- A link is an id, and the event with that id is the one linked to, unless
SHA-256 collides. -/
theorem parent_below (h : Inv s) {e f : Event} (hp : s.Parent e f) :
    Below e.vclock f.vclock ∨ s.Collision := by
  obtain ⟨he, hf, hid⟩ := hp
  obtain ⟨e', he', hid', hbelow⟩ := h.edges f hf e.id hid
  rw [h.hashed e' he', h.hashed e he] at hid'
  by_cases htext : e'.hashedText = e.hashedText
  · exact .inl (hbelow.of_perm (hashedText_inj htext).2 (h.counters e he))
  · exact .inr ⟨e', he', e, he, htext, hid'⟩

theorem ancestor_below (h : Inv s) {e f : Event} (ha : s.Ancestor e f) :
    Below e.vclock f.vclock ∨ s.Collision := by
  induction ha with
  | single hp => exact parent_below h hp
  | tail _ hp ih =>
    rcases ih with ih | hcollision
    · rcases parent_below h hp with hbelow | hcollision
      · exact .inl (ih.trans hbelow)
      · exact .inr hcollision
    · exact .inr hcollision

/-- **Vector clocks respect causality.** In every state of every run of a
group of nodes, the clock of a strict ancestor of an event is before the clock of the
event. -/
theorem ancestor_clock_before [DecidableEq ι] (config : ι → NodeConfig) (membership : ι → Membership)
    (acts : List (Act ι)) (e f : Event) (h : (run step (fresh config membership) acts).Ancestor e f) :
    relation e.vclock f.vclock = .before ∨ (run step (fresh config membership) acts).Collision := by
  have hinv := run_always (I := Inv) (fun _ act h => step_inv h act) acts (fresh_inv config membership)
  rcases ancestor_below hinv h with hbelow | hcollision
  · exact .inl (relation_before hbelow)
  · exact .inr hcollision

/-- A node emits two events. -/
def twoEvents : NodeGroup Unit :=
  run step (fresh (fun _ => { nodeId := "a" }) fun _ => ⟨[⟨"a", "self:a", "node", true⟩], ""⟩)
    [.emit () .C (.obj []) (.fin 1) (.fin 2) 0, .emit () .C (.obj []) (.fin 2) (.fin 3) 0]

theorem twoEvents_linked : ∃ e f, e ∈ twoEvents.emitted ∧ f ∈ twoEvents.emitted ∧ e.id ∈ f.parents := by
  have hcheck : (twoEvents.emitted[0]?.bind fun e => twoEvents.emitted[1]?.map fun f =>
      decide (e.id ∈ f.parents)) = some true := by decide +kernel
  obtain ⟨e, he, hf⟩ := Option.bind_eq_some_iff.1 hcheck
  obtain ⟨f, hf, hlink⟩ := Option.map_eq_some_iff.1 hf
  exact ⟨e, f, List.mem_of_getElem? he, List.mem_of_getElem? hf, of_decide_eq_true hlink⟩

theorem twoEvents_clock_before : ∃ e ∈ twoEvents.emitted, ∃ f ∈ twoEvents.emitted,
    twoEvents.Ancestor e f ∧ (relation e.vclock f.vclock = .before ∨ twoEvents.Collision) := by
  obtain ⟨e, f, he, hf, hlink⟩ := twoEvents_linked
  have hancestor : twoEvents.Ancestor e f :=
    .single ⟨List.mem_append_right _ he, List.mem_append_right _ hf, hlink⟩
  exact ⟨e, he, f, hf, hancestor, ancestor_clock_before _ _ _ e f hancestor⟩

end NodeGroup
end Mdrj.L5
