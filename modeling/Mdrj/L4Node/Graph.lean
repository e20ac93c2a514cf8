import Mdrj.Core.Runs
import Mdrj.L3Store.Writes
import Mdrj.L4Node.Node

/-!
# The stored graph

Calls that change the graph are batches of envelopes, emitted events and
retention passes. `store_envelope` takes the parent list of a new event as it
comes, so an event may name itself, or an event that already names it, as a
parent, and from then on `toposort` raises (`self_parent_stored`). The graph
of a node that never stores such an event stays acyclic, and none of its
calls fails for a cycle (`stored_graph_acyclic`).
-/
namespace Mdrj.L4
open Mdrj.Core Mdrj.L1 Mdrj.L2 Mdrj.L3 Relation

/-! ## Sorting -/

/-- An edge of the table between two stored events. -/
def StoredEdge (s : DAGStorage) (p c : String) : Prop := (p, c) ∈ s.edges ∧ p ∈ s.ids ∧ c ∈ s.ids

/-- **Topological sort.** Whatever is in the edges table, `toposort` raises
exactly when the edges between stored events make a cycle; otherwise it lists
each stored id once, and parents before their children. Its loop ends: more
turns than there are events change nothing. -/
theorem toposort_correct (s : DAGStorage) (hn : s.ids.Nodup) :
    (s.toposort = .error cycleError ↔ ∃ x, TransGen (StoredEdge s) x x) ∧
    ((∀ x, ¬ TransGen (StoredEdge s) x x) → ∃ order, s.toposort = .ok order ∧ order.Nodup ∧
      (∀ x, x ∈ order ↔ x ∈ s.ids) ∧ ∀ p c, StoredEdge s p c → order.idxOf p < order.idxOf c) ∧
    ∀ fuel, s.ids.length < fuel →
      Kahn.order s.ids s.edges fuel = Kahn.order s.ids s.edges (s.ids.length + 1) := by
  have hiff : (Kahn.toposort s.ids s.edges).isSome ↔ ∀ x, ¬ TransGen (StoredEdge s) x x :=
    Kahn.toposort_isSome_iff hn
  refine ⟨?_, fun hacyclic => ?_, fun fuel hf => Kahn.order_fuel s.edges hn hf⟩
  · unfold DAGStorage.toposort
    cases hsort : Kahn.toposort s.ids s.edges with
    | none =>
      rw [hsort] at hiff
      refine ⟨fun _ => ?_, fun _ => rfl⟩
      by_contra hno
      exact absurd (hiff.2 fun x hx => hno ⟨x, hx⟩) (by simp)
    | some order =>
      rw [hsort] at hiff
      refine ⟨fun he => (by cases he), fun hcycle => ?_⟩
      obtain ⟨x, hx⟩ := hcycle
      exact absurd hx (hiff.1 rfl x)
  · obtain ⟨order, hsort⟩ := Option.isSome_iff_exists.1 (hiff.2 hacyclic)
    obtain ⟨hperm, -⟩ := Kahn.toposort_some hn hsort
    refine ⟨order, ?_, hperm.nodup_iff.2 hn, fun x => hperm.mem_iff, fun p c hedge =>
      Kahn.toposort_idxOf_lt hn hsort hedge⟩
    unfold DAGStorage.toposort
    rw [hsort]

/-- Two events, with an edge between them, one from a pruned event and one to
an event that has not come. -/
def dangling : DAGStorage where
  events := [⟨Event.linked "y" "a" ["x", "gone"], .fin 0⟩, ⟨Event.linked "x" "a" [], .fin 1⟩]
  edges := [("x", "y"), ("gone", "y"), ("y", "late")]

theorem toposort_correct_dangling : ∃ order, dangling.toposort = .ok order ∧ order.Nodup ∧
    (∀ x, x ∈ order ↔ x ∈ dangling.ids) ∧ ∀ p c, StoredEdge dangling p c → order.idxOf p < order.idxOf c := by
  have hsort : dangling.toposort = .ok ["x", "y"] := by rfl
  refine (toposort_correct dangling (by decide)).2.1 fun x hx => ?_
  have hraise := (toposort_correct dangling (by decide)).1.2 ⟨x, hx⟩
  rw [hsort] at hraise
  cases hraise

/-! ## The invariant -/

/-- An event and one of its parents, both stored. -/
def ParentOf (s : DAGStorage) (p x : String) : Prop :=
  p ∈ s.ids ∧ ∃ row ∈ s.events, row.event.id = x ∧ p ∈ row.event.parents

/-- Ids are unique, every parent link has its edge, and the edges between
stored events make no cycle. -/
structure GraphInv (s : DAGStorage) : Prop where
  nodup : s.ids.Nodup
  linked : ∀ row ∈ s.events, ∀ p ∈ row.event.parents, (p, row.event.id) ∈ s.edges
  acyclic : ∀ x, ¬ TransGen (Kahn.Edge s.ids s.edges) x x

/-- `y` is a stored descendant of `x`. -/
def Descends (s : DAGStorage) (x y : String) : Prop :=
  TransGen (fun a b => (a, b) ∈ s.edges ∧ (a = x ∨ a ∈ s.ids) ∧ b ∈ s.ids) x y

/-- No parent of the event, by its own list or by an edge left over from an
earlier time, is the event itself or descends from it. -/
def Rooted (s : DAGStorage) (event : Event) : Prop :=
  ∀ p, p ∈ event.parents ∨ (p, event.id) ∈ s.edges → p ≠ event.id ∧ ¬ Descends s event.id p

namespace GraphInv
variable {s s' : DAGStorage}

theorem parents_acyclic (h : GraphInv s) (x : String) : ¬ TransGen (ParentOf s) x x := by
  intro hx
  refine h.acyclic x (TransGen.mono ?_ _ _ hx)
  rintro p y ⟨hp, row, hrow, rfl, hmem⟩
  exact ⟨h.linked row hrow p hmem, hp, List.mem_map_of_mem hrow⟩

theorem toposort_ok (h : GraphInv s) : ∃ order, s.toposort = .ok order := by
  have hsome := (Kahn.toposort_isSome_iff h.nodup).2 h.acyclic
  obtain ⟨order, horder⟩ := Option.isSome_iff_exists.1 hsome
  refine ⟨order, ?_⟩
  unfold DAGStorage.toposort
  rw [horder]

/-- Rows may change in everything but id and parents. -/
theorem of_rows (h : GraphInv s) (hedges : s'.edges = s.edges)
    (hrows : s'.events.map (fun row => (row.event.id, row.event.parents)) =
      s.events.map fun row => (row.event.id, row.event.parents)) : GraphInv s' := by
  have hids : s'.ids = s.ids := DAGStorage.ids_of_rows Prod.fst (fun _ => rfl) hrows
  refine ⟨hids ▸ h.nodup, fun row hrow p hp => ?_, ?_⟩
  · obtain ⟨row0, hrow0, heq⟩ := DAGStorage.exists_row hrows hrow
    obtain ⟨hid, hpar⟩ := Prod.mk.inj heq
    rw [hedges, ← hid]
    exact h.linked row0 hrow0 p (hpar ▸ hp)
  · rw [hids, hedges]; exact h.acyclic

/-- Rows may be deleted. -/
theorem of_sublist (h : GraphInv s) (hedges : s'.edges = s.edges)
    (hrows : s'.events.Sublist s.events) : GraphInv s' := by
  have hids : s'.ids.Sublist s.ids := hrows.map _
  refine ⟨h.nodup.sublist hids, fun row hrow p hp => ?_, fun x hx => ?_⟩
  · rw [hedges]; exact h.linked row (hrows.subset hrow) p hp
  · refine h.acyclic x (TransGen.mono ?_ _ _ hx)
    rintro a b ⟨he, ha, hb⟩
    rw [hedges] at he
    exact ⟨he, hids.subset ha, hids.subset hb⟩

end GraphInv

/-! ## One event more -/

section Insert
variable {s s' : DAGStorage}

/-- What `store_envelope` does to rows and edges: a known id keeps both, a
new one adds a row and an edge from each parent. -/
theorem storeEnvelope_graph {envelope : Envelope} {ts : Option Flt} {now : Flt} {stored : Bool}
    (h : s.storeEnvelope envelope ts now = .ok (s', stored)) :
    (envelope.event.id ∈ s.ids ∧ stored = false ∧ s'.edges = s.edges ∧
      s'.events.map (fun row => (row.event.id, row.event.parents)) =
        s.events.map fun row => (row.event.id, row.event.parents)) ∨
    (envelope.event.id ∉ s.ids ∧ stored = true ∧
      (∀ e, e ∈ s'.edges ↔ e ∈ s.edges ∨ ∃ p ∈ envelope.event.parents, e = (p, envelope.event.id)) ∧
      s'.events = s.events ++ [⟨DAGStorage.insertColumns envelope.event ts, now⟩]) := by
  rcases DAGStorage.storeEnvelope_cases h with ⟨hid, rfl, rfl⟩ | ⟨hid, -, rfl, rfl⟩
  · exact .inl ⟨hid, rfl, rfl, DAGStorage.unfilled_parents.fillRows envelope.event s.events⟩
  · exact .inr ⟨hid, rfl, fun e => DAGStorage.mem_addEdges, rfl⟩

theorem GraphInv.insert (h : GraphInv s) {event : Event} {now : Flt} {ts : Option Flt}
    (hid : event.id ∉ s.ids) (hroot : Rooted s event)
    (hedges : ∀ e, e ∈ s'.edges ↔ e ∈ s.edges ∨ ∃ p ∈ event.parents, e = (p, event.id))
    (hrows : s'.events = s.events ++ [⟨DAGStorage.insertColumns event ts, now⟩]) : GraphInv s' := by
  have hids : s'.ids = s.ids ++ [event.id] := by
    unfold DAGStorage.ids; rw [hrows, List.map_append]; rfl
  have hold : ∀ {a b}, (a, b) ∈ s'.edges → b ≠ event.id → (a, b) ∈ s.edges := by
    intro a b he hb
    rcases (hedges _).1 he with he | ⟨p, -, he⟩
    · exact he
    · exact absurd (Prod.mk.inj he).2 hb
  have hmem : ∀ {a}, a ∈ s'.ids → a = event.id ∨ a ∈ s.ids := by
    intro a ha
    rw [hids, List.mem_append, List.mem_singleton] at ha
    exact ha.symm
  refine ⟨?_, ?_, acyclic_insert (x := event.id) ?_ ?_⟩
  · rw [hids, ← List.concat_eq_append]
    exact (List.nodup_concat _ _).2 ⟨hid, h.nodup⟩
  · intro row hrow p hp
    rw [hrows, List.mem_append, List.mem_singleton] at hrow
    rcases hrow with hrow | rfl
    · exact (hedges _).2 (.inl (h.linked row hrow p hp))
    · exact (hedges _).2 (.inr ⟨p, hp, rfl⟩)
  · intro y hy
    refine h.acyclic y (TransGen.mono ?_ _ _ hy)
    rintro a b ⟨⟨he, ha, hb⟩, hax, hbx⟩
    exact ⟨hold he hbx, (hmem ha).resolve_left hax, (hmem hb).resolve_left hbx⟩
  · rintro p ⟨he, -, -⟩
    have hparent : p ∈ event.parents ∨ (p, event.id) ∈ s.edges := by
      rcases (hedges _).1 he with he | ⟨q, hq, heq⟩
      · exact .inr he
      · exact .inl ((Prod.mk.inj heq).1 ▸ hq)
    obtain ⟨hne, hdesc⟩ := hroot p hparent
    refine ⟨hne, fun hpath => hdesc (TransGen.mono ?_ _ _ hpath)⟩
    rintro a b ⟨⟨he, ha, hb⟩, hbx⟩
    exact ⟨hold he hbx, hmem ha, (hmem hb).resolve_left hbx⟩

theorem replaceConsensusState_rows (states : List ConsensusState) :
    (s.replaceConsensusState states).edges = s.edges ∧
      (s.replaceConsensusState states).events.map (fun row => (row.event.id, row.event.parents)) =
        s.events.map fun row => (row.event.id, row.event.parents) := by
  refine ⟨?_, DAGStorage.replaceConsensusState_map (fun _ _ => rfl) s states⟩
  rw [DAGStorage.replaceConsensusState_eq]

end Insert

/-! ## The calls -/

/-- A call that changes the graph. -/
inductive GraphAction where
  | ingest (envelopes : List (Envelope × Flt))
  | emit (cls : EventClass) (payload : Json) (ts now : Flt) (pick : Nat)
  | retain (now : Flt)

def Call.toUnit {α : Type} (c : Call α) : Call Unit := ⟨c.node, c.result.map fun _ => ()⟩

def GraphAction.call (n : Node) : GraphAction → Call Unit
  | .ingest envelopes => (n.ingestEnvelopes envelopes).toUnit
  | .emit cls payload ts now pick => (n.emitEvent cls payload ts now pick).toUnit
  | .retain now => (n.runRetentionOnce now).toUnit

def GraphAction.step (n : Node) (a : GraphAction) : Node := (a.call n).node

/-- Every event of the batch that is stored under a new id is rooted when its
turn comes. -/
def BatchRooted : Node → List (Envelope × Flt) → Prop
  | _, [] => True
  | n, (envelope, now) :: rest =>
    (envelope.event.id ∉ n.storage.ids → Rooted n.storage envelope.event) ∧
      match n.persistEnvelope envelope now with
      | ⟨n, .ok _⟩ => BatchRooted n rest
      | ⟨_, .error _⟩ => True

/-- Every event the call stores under a new id is rooted. -/
def GraphAction.Rooted (n : Node) : GraphAction → Prop
  | .ingest envelopes => BatchRooted n envelopes
  | .emit cls payload ts _ pick =>
    (n.nextEvent cls payload ts pick).id ∉ n.storage.ids →
      L4.Rooted n.storage (n.nextEvent cls payload ts pick)
  | .retain _ => True

section Calls
variable {n : Node}

theorem recomputeConsensus_graph (h : GraphInv n.storage) :
    GraphInv n.recomputeConsensus.node.storage ∧ n.recomputeConsensus.result = .ok () := by
  obtain ⟨order, hsort⟩ := h.toposort_ok
  unfold Node.recomputeConsensus
  split
  · exact ⟨h, rfl⟩
  · rw [hsort]
    dsimp only
    split
    · exact ⟨h, rfl⟩
    · rename_i states _
      exact ⟨h.of_rows (replaceConsensusState_rows states).1 (replaceConsensusState_rows states).2, rfl⟩

theorem insertError_ne_cycle {event : Event} {err : PyError}
    (h : DAGStorage.insertError event = some err) : err ≠ cycleError := by
  unfold DAGStorage.insertError at h
  unfold cycleError
  split at h
  · obtain rfl := Option.some.inj h; exact fun h => by cases h
  · split at h
    · obtain rfl := Option.some.inj h; exact fun h => by cases h
    · cases h

theorem persistEnvelope_graph (h : GraphInv n.storage) (envelope : Envelope) (now : Flt)
    (hroot : envelope.event.id ∉ n.storage.ids → Rooted n.storage envelope.event) :
    GraphInv (n.persistEnvelope envelope now).node.storage ∧
      (n.persistEnvelope envelope now).result ≠ .error cycleError := by
  unfold Node.persistEnvelope
  split
  · rename_i err herr
    refine ⟨h, fun hc => ?_⟩
    obtain rfl := Except.error.inj hc
    unfold DAGStorage.storeEnvelope at herr
    dsimp only at herr
    split at herr
    · cases herr
    · split at herr
      · rename_i err' hins
        obtain rfl := Except.error.inj herr
        exact insertError_ne_cycle hins rfl
      · cases herr
  · rename_i storage stored hs
    refine ⟨?_, fun hc => by cases hc⟩
    rcases storeEnvelope_graph hs with ⟨-, -, hedges, hrows⟩ | ⟨hid, -, hedges, hrows⟩
    · exact h.of_rows hedges hrows
    · exact h.insert hid (hroot hid) hedges hrows

theorem ingestLoop_graph (envelopes : List (Envelope × Flt)) :
    ∀ {n : Node} (newIds : List String), GraphInv n.storage → BatchRooted n envelopes →
      GraphInv (Node.ingestLoop n newIds envelopes).node.storage ∧
        (Node.ingestLoop n newIds envelopes).result ≠ .error cycleError := by
  induction envelopes with
  | nil => intro n newIds h _; exact ⟨h, fun hc => by cases hc⟩
  | cons p rest ih =>
    intro n newIds h hroot
    obtain ⟨hfirst, hrest⟩ := hroot
    obtain ⟨hinv, herr⟩ := persistEnvelope_graph h p.1 p.2 hfirst
    unfold Node.ingestLoop
    split
    · rename_i n' err hp
      rw [hp] at hinv herr
      exact ⟨hinv, fun hc => herr (congrArg Except.error (Except.error.inj hc))⟩
    · rename_i n' stored hp
      rw [hp] at hinv hrest
      exact ih _ hinv hrest

theorem ingestEnvelopes_graph (h : GraphInv n.storage) {envelopes : List (Envelope × Flt)}
    (hroot : BatchRooted n envelopes) :
    GraphInv (n.ingestEnvelopes envelopes).node.storage ∧
      (n.ingestEnvelopes envelopes).result ≠ .error cycleError := by
  obtain ⟨hinv, herr⟩ := ingestLoop_graph envelopes [] h hroot
  unfold Node.ingestEnvelopes
  split
  · rename_i n' err hl
    rw [hl] at hinv herr
    exact ⟨hinv, herr⟩
  · rename_i n' newIds hl
    rw [hl] at hinv
    split
    · exact ⟨hinv, fun hc => by cases hc⟩
    · obtain ⟨hinv', hok⟩ := recomputeConsensus_graph hinv
      split
      · rename_i hr; rw [hr] at hok; cases hok
      · rename_i hr; rw [hr] at hinv'; exact ⟨hinv', fun hc => by cases hc⟩

theorem emitEvent_graph (h : GraphInv n.storage) {cls : EventClass} {payload : Json} {ts now : Flt}
    {pick : Nat} (hroot : (n.nextEvent cls payload ts pick).id ∉ n.storage.ids →
      Rooted n.storage (n.nextEvent cls payload ts pick)) :
    GraphInv (n.emitEvent cls payload ts now pick).node.storage ∧
      (n.emitEvent cls payload ts now pick).result ≠ .error cycleError := by
  obtain ⟨hinv, herr⟩ := persistEnvelope_graph (n := { n with anchors := n.anchorIds })
    h ⟨n.nextEvent cls payload ts pick, [⟨some n.config.nodeId, some ts⟩]⟩ now hroot
  unfold Node.emitEvent
  dsimp only
  split
  · rename_i n' err hp
    rw [hp] at hinv herr
    exact ⟨hinv, herr⟩
  · rename_i n' stored hp
    rw [hp] at hinv
    obtain ⟨hinv', hok⟩ := recomputeConsensus_graph hinv
    split
    · rename_i hr; rw [hr] at hok; cases hok
    · rename_i hr; rw [hr] at hinv'; exact ⟨hinv', fun hc => by cases hc⟩

theorem runRetentionOnce_graph (h : GraphInv n.storage) (now : Flt) :
    GraphInv (n.runRetentionOnce now).node.storage ∧
      (n.runRetentionOnce now).result ≠ .error cycleError := by
  rcases n.runRetentionOnce_cases now with heq | heq | ⟨confirmedRound, maxAge, heq⟩
  · rw [heq]; exact ⟨h, fun hc => by cases hc⟩
  · rw [heq]; exact ⟨h, fun hc => by cases hc⟩
  · rw [heq]; exact ⟨h.of_sublist rfl List.filter_sublist, fun hc => by cases hc⟩

theorem call_graph (n : Node) (a : GraphAction) (h : GraphInv n.storage) (hroot : a.Rooted n) :
    GraphInv (a.call n).node.storage ∧ (a.call n).result ≠ .error cycleError := by
  have key : ∀ {α : Type} {c : Call α}, GraphInv c.node.storage ∧ c.result ≠ .error cycleError →
      GraphInv c.toUnit.node.storage ∧ c.toUnit.result ≠ .error cycleError := by
    rintro α ⟨m, result⟩ ⟨hinv, herr⟩
    refine ⟨hinv, fun hc => ?_⟩
    cases result with
    | error err => exact herr (congrArg Except.error (Except.error.inj hc))
    | ok value => cases hc
  cases a with
  | ingest envelopes => exact key (ingestEnvelopes_graph h hroot)
  | emit cls payload ts now pick => exact key (emitEvent_graph h hroot)
  | retain now => exact key (runRetentionOnce_graph h now)

end Calls

/-- **The stored graph stays acyclic.** From an empty events table, in every
run that stores rooted events only, the parents of stored events make no
cycle, `toposort` and recomputation return, and no call fails for a cycle. -/
theorem stored_graph_acyclic {n : Node} (hevents : n.storage.events = []) (hedges : n.storage.edges = [])
    {actions : List GraphAction} (hok : Admits GraphAction.step GraphAction.Rooted n actions) :
    (∀ x, ¬ TransGen (ParentOf (run GraphAction.step n actions).storage) x x) ∧
    (∃ order, (run GraphAction.step n actions).storage.toposort = .ok order) ∧
    (run GraphAction.step n actions).recomputeConsensus.result = .ok () ∧
    ∀ a : GraphAction, a.Rooted (run GraphAction.step n actions) →
      (a.call (run GraphAction.step n actions)).result ≠ .error cycleError := by
  have hstart : GraphInv n.storage := by
    refine ⟨?_, ?_, fun x hx => ?_⟩
    · unfold DAGStorage.ids; rw [hevents]; exact List.nodup_nil
    · rw [hevents]; intro row hrow; cases hrow
    · obtain ⟨y, hy, -⟩ := TransGen.head'_iff.1 hx
      rw [hedges] at hy
      exact absurd hy.1 List.not_mem_nil
  have hinv : GraphInv (run GraphAction.step n actions).storage :=
    run_invariant (I := fun n : Node => GraphInv n.storage) (fun n a h hroot => (call_graph n a h hroot).1)
      hstart hok
  exact ⟨hinv.parents_acyclic, hinv.toposort_ok, (recomputeConsensus_graph hinv).2,
    fun a ha => (call_graph _ a hinv ha).2⟩

/-- A node without events. -/
def blank : Node := { config := { nodeId := "a" }, membership := ⟨[⟨"a", "", "node", true⟩], "h"⟩ }

/-- An event and its child. -/
def chain : List (Envelope × Flt) :=
  [(⟨Event.linked "x" "a" [], []⟩, .fin 0), (⟨Event.linked "y" "a" ["x"], []⟩, .fin 1)]

theorem stored_graph_acyclic_chain : ∃ order,
    (run GraphAction.step blank [.ingest chain]).storage.toposort = .ok order := by
  have hfirst : Rooted blank.storage (Event.linked "x" "a" []) := by
    rintro p (hp | hp) <;> cases hp
  have hsecond : Rooted (blank.persistEnvelope ⟨Event.linked "x" "a" [], []⟩ (.fin 0)).node.storage
      (Event.linked "y" "a" ["x"]) := by
    intro p hp
    obtain rfl : p = "x" := hp.elim List.mem_singleton.1 fun h => by cases h
    refine ⟨by decide, fun hdesc => ?_⟩
    -- nothing descends from `y`: the table of edges is empty
    obtain ⟨z, ⟨he, -, -⟩, -⟩ := TransGen.head'_iff.1 hdesc
    cases he
  have hok : Admits GraphAction.step GraphAction.Rooted blank [.ingest chain] :=
    ⟨⟨fun _ => hfirst, fun _ => hsecond, trivial⟩, trivial⟩
  exact (stored_graph_acyclic rfl rfl hok).2.1

/-- An event that names itself is stored, and the next pass raises. -/
theorem self_parent_stored : ∃ envelope : Envelope,
    (blank.ingestEnvelopes [(envelope, .fin 0)]).node.storage.ids = ["x"] ∧
    (blank.ingestEnvelopes [(envelope, .fin 0)]).node.storage.toposort = .error cycleError ∧
    (blank.ingestEnvelopes [(envelope, .fin 0)]).result = .error cycleError ∧
    TransGen (ParentOf (blank.ingestEnvelopes [(envelope, .fin 0)]).node.storage) "x" "x" := by
  refine ⟨⟨Event.linked "x" "a" ["x"], []⟩, rfl, rfl, rfl, TransGen.single ⟨by decide, ?_⟩⟩
  exact ⟨_, List.mem_cons_self, rfl, List.mem_cons_self⟩

end Mdrj.L4
