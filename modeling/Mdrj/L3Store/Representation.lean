import Mdrj.L3Store.Replica

/-!
# The representation of the graph

Events, edges and envelopes are three tables written by separate statements.
Over every sequence of `store_envelope`, `replace_consensus_state`,
`prune_under_checkpoint` and `clear_events` in which equal ids carry equal
content, they stay one representation (`representation_invariant`): ids are
unique, the edges into a stored event are its parents, and every stored event
has one row of hops, without repetition. What the author wrote of an event,
and the time it was stored, do not change while it is stored.

Pruning leaves edges behind. They are the edges of the same content, so they
fit the event when it is stored again.
-/
namespace Mdrj.L3
open Mdrj.Core Mdrj.L1 Mdrj.L2

/-! ## The tables whatever the content -/

/-- Ids are unique, every parent has its edge and every event one row of
hops. -/
structure Tables (s : DAGStorage) : Prop where
  nodup : s.ids.Nodup
  linked : ∀ row ∈ s.events, ∀ p ∈ row.event.parents, (p, row.event.id) ∈ s.edges
  envelopes : (Dict.keys s.envelopes).Nodup ∧ ∀ x ∈ s.ids, x ∈ Dict.keys s.envelopes
  hops : ∀ p ∈ s.envelopes, p.2.Nodup

namespace Tables
variable {s s' : DAGStorage}

/-- Rows may change in everything but id and parents. -/
theorem of_rows (h : Tables s) (hedges : s'.edges = s.edges) (henv : s'.envelopes = s.envelopes)
    (hrows : s'.events.map (fun row => (row.event.id, row.event.parents)) =
      s.events.map fun row => (row.event.id, row.event.parents)) : Tables s' := by
  have hids : s'.ids = s.ids := DAGStorage.ids_of_rows Prod.fst (fun _ => rfl) hrows
  refine ⟨hids ▸ h.nodup, fun row hrow p hp => ?_, ?_, henv ▸ h.hops⟩
  · obtain ⟨row₀, hrow₀, heq⟩ := DAGStorage.exists_row hrows hrow
    obtain ⟨hid, hpar⟩ := Prod.mk.inj heq
    rw [hedges, ← hid]
    exact h.linked row₀ hrow₀ p (hpar ▸ hp)
  · rw [henv, hids]; exact h.envelopes

theorem mergePathMeta (h : Tables s) (x : String) (hops : List Hop) : Tables (s.mergePathMeta x hops) := by
  refine ⟨h.nodup, h.linked, ⟨Dict.nodup_set h.envelopes.1 _ _, fun y hy => ?_⟩, fun p hp => ?_⟩
  · exact Dict.mem_keys_set.2 (.inr (h.envelopes.2 y hy))
  · have hget := Dict.get_of_mem (Dict.nodup_set h.envelopes.1 _ _) hp
    rw [Dict.get_set] at hget
    split at hget
    · rw [← Option.some.inj hget]
      exact DAGStorage.nodup_mergeHops _ _
    · exact h.hops p (Dict.mem_of_get hget)

/-- A new event, with its edges and its hops. -/
theorem insert (h : Tables s) {event : Event} (hid : event.id ∉ s.ids) (hops : List Hop)
    (ts : Option Flt) (now : Flt) :
    Tables { s.mergePathMeta event.id hops with
      events := s.events ++ [⟨DAGStorage.insertColumns event ts, now⟩]
      edges := event.parents.foldl (fun edges parent => DAGStorage.addEdge edges (parent, event.id))
        s.edges } := by
  have hm := h.mergePathMeta event.id hops
  refine ⟨?_, fun row hrow p hp => ?_, ⟨hm.envelopes.1, fun x hx => ?_⟩, hm.hops⟩
  · unfold DAGStorage.ids
    dsimp only
    rw [List.map_append, List.map_singleton, ← List.concat_eq_append]
    exact (List.nodup_concat _ _).2 ⟨hid, h.nodup⟩
  · rcases List.mem_append.1 hrow with hrow | hrow
    · exact DAGStorage.mem_addEdges.2 (.inl (h.linked row hrow p hp))
    · obtain rfl := List.mem_singleton.1 hrow
      exact DAGStorage.mem_addEdges.2 (.inr ⟨p, hp, rfl⟩)
  · unfold DAGStorage.ids at hx
    dsimp only at hx
    rw [List.map_append, List.mem_append] at hx
    rcases hx with hx | hx
    · exact hm.envelopes.2 x hx
    · obtain rfl := List.mem_singleton.1 hx
      exact Dict.mem_keys_set.2 (.inl rfl)

/-- Pruned ids leave `events` and `envelopes` together. -/
theorem prune (h : Tables s) (confirmedRound : Int) (maxAgeSeconds : Flt) (keepClassA : Bool) (now : Flt) :
    Tables (s.pruneUnderCheckpoint confirmedRound maxAgeSeconds keepClassA now).1 := by
  unfold DAGStorage.pruneUnderCheckpoint
  dsimp only
  set prunable := DAGStorage.prunable confirmedRound (now.sub maxAgeSeconds) keepClassA
  set pruned := (s.events.filter prunable).insertionSort
    fun a b => a.event.roundReceived.getD 0 ≤ b.event.roundReceived.getD 0
  refine ⟨h.nodup.sublist (List.filter_sublist.map _),
    fun row hrow => h.linked row (List.mem_filter.1 hrow).1,
    ⟨h.envelopes.1.sublist (List.filter_sublist.map _), fun x hx => ?_⟩,
    fun p hp => h.hops p (List.mem_filter.1 hp).1⟩
  obtain ⟨row, hrow, rfl⟩ := List.mem_map.1 hx
  obtain ⟨hmem, hkept⟩ := List.mem_filter.1 hrow
  obtain ⟨p, hp, hkey⟩ := List.mem_map.1 (h.envelopes.2 row.event.id (List.mem_map_of_mem hmem))
  refine List.mem_map.2 ⟨p, List.mem_filter.2 ⟨hp, ?_⟩, hkey⟩
  -- a pruned row of this id would be this row
  simp only [Bool.not_eq_eq_eq_not, Bool.not_true, decide_eq_false_iff_not]
  intro hpruned
  obtain ⟨row', hrow', hid'⟩ := List.mem_map.1 hpruned
  obtain ⟨hmem', hprunable⟩ := List.mem_filter.1 ((List.mem_insertionSort _).1 hrow')
  have heq : row' = row := List.inj_on_of_nodup_map h.nodup hmem' hmem (hid'.trans hkey)
  rw [heq] at hprunable
  rw [hprunable] at hkept
  cases hkept

theorem fillRows (h : Tables s) (event : Event) (ts : Option Flt) :
    Tables { s with events := s.events.map (DAGStorage.fillRow event ts) } :=
  h.of_rows rfl rfl (DAGStorage.unfilled_parents.fillRows event s.events)

theorem storeEnvelope (h : Tables s) {envelope : Envelope} {ts : Option Flt} {now : Flt} {stored : Bool}
    (hs : s.storeEnvelope envelope ts now = .ok (s', stored)) : Tables s' := by
  rcases DAGStorage.storeEnvelope_cases hs with ⟨-, -, rfl⟩ | ⟨hid, -, -, rfl⟩
  · exact (h.mergePathMeta _ _).fillRows _ _
  · exact h.insert hid _ _ _

theorem replaceConsensusState (h : Tables s) (states : List ConsensusState) :
    Tables (s.replaceConsensusState states) := by
  have hrows := DAGStorage.replaceConsensusState_map (f := fun row => (row.event.id, row.event.parents))
    (fun _ _ => rfl) s states
  rw [DAGStorage.replaceConsensusState_eq] at hrows ⊢
  exact h.of_rows rfl rfl hrows

theorem empty : Tables {} := by
  refine ⟨List.nodup_nil, ?_, ⟨List.nodup_nil, ?_⟩, ?_⟩
  · intro row hrow; cases hrow
  · intro x hx; cases hx
  · intro p hp; cases hp

end Tables

/-! ## The invariant -/

/-- The tables of one graph. -/
structure StoreInv (s : DAGStorage) : Prop where
  nodup : s.ids.Nodup
  edges : ∀ row ∈ s.events, ∀ p, (p, row.event.id) ∈ s.edges ↔ p ∈ row.event.parents
  envelopes : (Dict.keys s.envelopes).Nodup ∧ ∀ x ∈ s.ids, x ∈ Dict.keys s.envelopes
  hops : ∀ p ∈ s.envelopes, p.2.Nodup

/-- The content of every id, and the edges of that content. -/
structure Typed (contentOf : String → Content) (s : DAGStorage) : Prop where
  rows : ∀ row ∈ s.events, content row.event = contentOf row.event.id
  edges : ∀ p ∈ s.edges, p.1 ∈ (contentOf p.2).parents

/-- What does not change of a row while it is stored. -/
def frozen (row : EventRow) : Content × Flt := (content row.event, row.createdAt)

/-! ## The operations -/

inductive StoreAction where
  | store (d : Delivery)
  | consensus (states : List ConsensusState)
  | prune (confirmedRound : Int) (maxAgeSeconds : Flt) (keepClassA : Bool) (now : Flt)
  | clear

def StoreAction.step (s : DAGStorage) : StoreAction → DAGStorage
  | .store d => deliver s d
  | .consensus states => s.replaceConsensusState states
  | .prune confirmedRound maxAgeSeconds keepClassA now =>
    (s.pruneUnderCheckpoint confirmedRound maxAgeSeconds keepClassA now).1
  | .clear => s.clearEvents

/-- The envelope the action hands to the store. -/
def StoreAction.envelope : StoreAction → Option Envelope
  | .store d => some d.envelope
  | _ => none

/-- An envelope of the run carries the content of its id. -/
def StoreAction.Fits (contentOf : String → Content) (a : StoreAction) : Prop :=
  ∀ e, a.envelope = some e → content e.event = contentOf e.event.id

section Steps
variable {s s' : DAGStorage} {contentOf : String → Content}

theorem StoreInv.tables (h : StoreInv s) : Tables s :=
  ⟨h.nodup, fun row hrow p hp => (h.edges row hrow p).2 hp, h.envelopes, h.hops⟩

/-- With the parents of an event at hand, its edges are these. -/
theorem Tables.storeInv (h : Tables s)
    (hedges : ∀ row ∈ s.events, ∀ p, (p, row.event.id) ∈ s.edges → p ∈ row.event.parents) : StoreInv s :=
  ⟨h.nodup, fun row hrow p => ⟨hedges row hrow p, h.linked row hrow p⟩, h.envelopes, h.hops⟩

/-- Rows may change in everything but content. -/
theorem StoreInv.of_rows (h : StoreInv s) (hedges : s'.edges = s.edges)
    (henv : s'.envelopes = s.envelopes)
    (hrows : s'.events.map (fun row => content row.event) = s.events.map fun row => content row.event) :
    StoreInv s' := by
  have hids : s'.ids = s.ids := DAGStorage.ids_of_rows Content.id (fun _ => rfl) hrows
  refine ⟨hids ▸ h.nodup, fun row hrow p => ?_, ?_, henv ▸ h.hops⟩
  · obtain ⟨row₀, hrow₀, hc⟩ := DAGStorage.exists_row hrows hrow
    have hid : row₀.event.id = row.event.id := congrArg Content.id hc
    have hpar : row₀.event.parents = row.event.parents := congrArg Content.parents hc
    rw [hedges, ← hid, ← hpar]
    exact h.edges row₀ hrow₀ p
  · rw [henv, hids]; exact h.envelopes

theorem Typed.of_rows (h : Typed contentOf s) (hedges : s'.edges = s.edges)
    (hrows : s'.events.map (fun row => content row.event) = s.events.map fun row => content row.event) :
    Typed contentOf s' := by
  refine ⟨fun row hrow => ?_, hedges ▸ h.edges⟩
  obtain ⟨row₀, hrow₀, hc⟩ := DAGStorage.exists_row hrows hrow
  have hid : row₀.event.id = row.event.id := congrArg Content.id hc
  exact hc.symm.trans (hid ▸ h.rows row₀ hrow₀)

theorem StoreInv.mergePathMeta (h : StoreInv s) (x : String) (hops : List Hop) :
    StoreInv (s.mergePathMeta x hops) :=
  (h.tables.mergePathMeta x hops).storeInv fun row hrow p => (h.edges row hrow p).1

theorem contents_fillRows (event : Event) (ts : Option Flt) (rows : List EventRow) :
    (rows.map (DAGStorage.fillRow event ts)).map (fun row => content row.event) =
      rows.map fun row => content row.event := unfilled_content.fillRows event rows

/-- A new event, with its edges and its hops. -/
theorem StoreInv.insert (h : StoreInv s) (ht : Typed contentOf s) {d : Delivery}
    (hc : content d.envelope.event = contentOf d.envelope.event.id)
    (hid : d.envelope.event.id ∉ s.ids) :
    StoreInv { s.mergePathMeta d.envelope.event.id d.envelope.pathMeta with
      events := s.events ++ [⟨DAGStorage.insertColumns d.envelope.event d.consensusTs, d.now⟩]
      edges := d.envelope.event.parents.foldl
        (fun edges parent => DAGStorage.addEdge edges (parent, d.envelope.event.id)) s.edges } := by
  refine (h.tables.insert hid _ _ _).storeInv fun row hrow p hp => ?_
  rcases List.mem_append.1 hrow with hrow | hrow
  · -- an edge into another event
    have hne : row.event.id ≠ d.envelope.event.id := fun he => hid (he ▸ List.mem_map_of_mem hrow)
    rcases DAGStorage.mem_addEdges.1 hp with hp | ⟨q, -, he⟩
    · exact (h.edges row hrow p).1 hp
    · exact absurd (Prod.mk.inj he).2 hne
  · -- edges of this id that were there are those of its content
    obtain rfl := List.mem_singleton.1 hrow
    rcases DAGStorage.mem_addEdges.1 hp with hp | ⟨q, hq, he⟩
    · have := ht.edges _ hp
      dsimp only [DAGStorage.insertColumns] at this
      rw [← hc] at this
      exact this
    · exact (Prod.mk.inj he).1 ▸ hq

theorem Typed.insert (ht : Typed contentOf s) {d : Delivery}
    (hc : content d.envelope.event = contentOf d.envelope.event.id) :
    Typed contentOf { s.mergePathMeta d.envelope.event.id d.envelope.pathMeta with
      events := s.events ++ [⟨DAGStorage.insertColumns d.envelope.event d.consensusTs, d.now⟩]
      edges := d.envelope.event.parents.foldl
        (fun edges parent => DAGStorage.addEdge edges (parent, d.envelope.event.id)) s.edges } := by
  refine ⟨fun row hrow => ?_, fun p hp => ?_⟩
  · rcases List.mem_append.1 hrow with hrow | hrow
    · exact ht.rows row hrow
    · obtain rfl := List.mem_singleton.1 hrow
      exact hc
  · rcases DAGStorage.mem_addEdges.1 hp with hp | ⟨q, hq, rfl⟩
    · exact ht.edges p hp
    · dsimp only
      rw [← hc]
      exact hq

theorem deliver_inv (h : StoreInv s) (ht : Typed contentOf s) (d : Delivery)
    (hc : content d.envelope.event = contentOf d.envelope.event.id) :
    StoreInv (deliver s d) ∧ Typed contentOf (deliver s d) := by
  rcases deliver_cases s d with heq | ⟨hid, heq⟩ | ⟨hid, -, heq⟩
  · rw [heq]
    exact ⟨h, ht⟩
  · have hrows := contents_fillRows d.envelope.event d.consensusTs s.events
    rw [heq]
    exact ⟨(h.mergePathMeta _ _).of_rows rfl rfl hrows, ht.of_rows rfl hrows⟩
  · rw [heq]
    exact ⟨h.insert ht hc hid, ht.insert hc⟩

theorem prune_inv (h : StoreInv s) (ht : Typed contentOf s) (confirmedRound : Int)
    (maxAgeSeconds : Flt) (keepClassA : Bool) (now : Flt) :
    StoreInv (s.pruneUnderCheckpoint confirmedRound maxAgeSeconds keepClassA now).1 ∧
      Typed contentOf (s.pruneUnderCheckpoint confirmedRound maxAgeSeconds keepClassA now).1 := by
  have hsub : ∀ row ∈ (s.pruneUnderCheckpoint confirmedRound maxAgeSeconds keepClassA now).1.events,
      row ∈ s.events := fun row hrow => (List.mem_filter.1 hrow).1
  exact ⟨(h.tables.prune _ _ _ _).storeInv fun row hrow p => (h.edges row (hsub row hrow) p).1,
    fun row hrow => ht.rows row (hsub row hrow), ht.edges⟩

theorem empty_inv : StoreInv {} ∧ Typed contentOf {} := by
  refine ⟨Tables.empty.storeInv ?_, ?_, ?_⟩
  · intro row hrow; cases hrow
  · intro row hrow; cases hrow
  · intro p hp; cases hp

theorem step_inv (s : DAGStorage) (a : StoreAction) (h : StoreInv s ∧ Typed contentOf s)
    (ha : a.Fits contentOf) : StoreInv (a.step s) ∧ Typed contentOf (a.step s) := by
  obtain ⟨h, ht⟩ := h
  cases a with
  | store d => exact deliver_inv h ht d (ha d.envelope rfl)
  | consensus states =>
    show StoreInv (s.replaceConsensusState states) ∧ Typed contentOf (s.replaceConsensusState states)
    have hrows := DAGStorage.replaceConsensusState_map (f := fun row => content row.event)
      (fun _ _ => rfl) s states
    rw [DAGStorage.replaceConsensusState_eq] at hrows ⊢
    exact ⟨h.of_rows rfl rfl hrows, ht.of_rows rfl hrows⟩
  | prune confirmedRound maxAgeSeconds keepClassA now => exact prune_inv h ht _ _ _ _
  | clear => exact empty_inv

/-! ## Rows do not change -/

/-- One step keeps the rows of the ids that stay. -/
theorem step_frozen (h : StoreInv s) (a : StoreAction) {row row' : EventRow} (hrow : row ∈ s.events)
    (hrow' : row' ∈ (a.step s).events) (hid : row'.event.id = row.event.id) :
    frozen row' = frozen row := by
  have huniq : ∀ row₀ ∈ s.events, row₀.event.id = row.event.id → row₀ = row := fun row₀ hrow₀ he =>
    List.inj_on_of_nodup_map h.nodup hrow₀ hrow he
  cases a with
  | store d =>
    change row' ∈ (deliver s d).events at hrow'
    rcases deliver_cases s d with heq | ⟨hid', heq⟩ | ⟨hnew, -, heq⟩
    · rw [heq] at hrow'
      rw [huniq row' hrow' hid]
    · rw [heq] at hrow'
      obtain ⟨row₀, hrow₀, rfl⟩ := List.mem_map.1 hrow'
      rw [DAGStorage.fillRow_id] at hid
      obtain rfl := huniq row₀ hrow₀ hid
      have hunfilled : DAGStorage.Unfilled frozen := fun _ _ _ _ => rfl
      exact hunfilled.fillRow d.envelope.event row₀
    · rw [heq] at hrow'
      rcases List.mem_append.1 hrow' with hrow' | hrow'
      · rw [huniq row' hrow' hid]
      · obtain rfl := List.mem_singleton.1 hrow'
        exact absurd (hid ▸ List.mem_map_of_mem hrow) hnew
  | consensus states =>
    change row' ∈ (s.replaceConsensusState states).events at hrow'
    obtain ⟨row₀, hrow₀, hkeep⟩ := DAGStorage.exists_row
      (DAGStorage.replaceConsensusState_map (f := frozen) (fun _ _ => rfl) s states) hrow'
    have hid₀ : row₀.event.id = row'.event.id := congrArg (fun p => p.1.id) hkeep
    rw [← hkeep, huniq row₀ hrow₀ (hid₀.trans hid)]
  | prune confirmedRound maxAgeSeconds keepClassA now =>
    rw [huniq row' (List.mem_filter.1 hrow').1 hid]
  | clear => cases hrow'

end Steps

/-- The ids stored in every state of the run. -/
def StoredThroughout (s : DAGStorage) (actions : List StoreAction) (x : String) : Prop :=
  ∀ pre, pre <+: actions → x ∈ (run StoreAction.step s pre).ids

theorem run_frozen {contentOf : String → Content} {s : DAGStorage} {actions : List StoreAction}
    (h : StoreInv s ∧ Typed contentOf s) (hfits : ∀ a ∈ actions, a.Fits contentOf) {row row' : EventRow}
    (hrow : row ∈ s.events) (hstored : StoredThroughout s actions row.event.id)
    (hrow' : row' ∈ (run StoreAction.step s actions).events) (hid : row'.event.id = row.event.id) :
    frozen row' = frozen row := by
  induction actions generalizing s row with
  | nil =>
    obtain rfl : row' = row := List.inj_on_of_nodup_map h.1.nodup hrow' hrow hid
    rfl
  | cons a actions ih =>
    -- the row after the first step, then the rest of the run
    have hnext : row.event.id ∈ (a.step s).ids :=
      hstored [a] (List.prefix_cons_iff.2 (.inr ⟨[], rfl, List.nil_prefix⟩))
    obtain ⟨row₁, hrow₁, hid₁⟩ := List.mem_map.1 hnext
    have hfirst : frozen row₁ = frozen row := step_frozen h.1 a hrow hrow₁ hid₁
    refine (ih (step_inv s a h (hfits a List.mem_cons_self)) (fun b hb => hfits b
      (List.mem_cons_of_mem _ hb)) hrow₁ ?_ hrow' (hid.trans hid₁.symm)).trans hfirst
    intro pre hpre
    rw [hid₁]
    exact hstored (a :: pre) (List.prefix_cons_iff.2 (.inr ⟨pre, rfl, hpre⟩))

/-- **One representation.** In every run of the four operations from empty
tables in which equal ids carry equal content, the tables stay the
representation of one graph, and a stored row keeps what its author wrote
and its creation time as long as it is stored. -/
theorem representation_invariant {actions : List StoreAction}
    (hsame : SameContent (actions.filterMap StoreAction.envelope)) :
    let s := run StoreAction.step {} actions
    s.ids.Nodup ∧
    (∀ row ∈ s.events, ∀ p, (p, row.event.id) ∈ s.edges ↔ p ∈ row.event.parents) ∧
    (∀ row ∈ s.events, (Dict.keys s.envelopes).count row.event.id = 1) ∧
    ∀ pre post, actions = pre ++ post → ∀ row ∈ (run StoreAction.step {} pre).events,
      StoredThroughout (run StoreAction.step {} pre) post row.event.id →
      ∀ row' ∈ s.events, row'.event.id = row.event.id → frozen row' = frozen row := by
  intro s
  -- every id has one content in the run
  obtain ⟨contentOf, hcontent⟩ : ∃ contentOf : String → Content, ∀ a ∈ actions, a.Fits contentOf := by
    classical
    refine ⟨fun x => if h : ∃ e ∈ actions.filterMap StoreAction.envelope, e.event.id = x then
      content h.choose.event else ⟨x, .A, "", .nan, [], [], .null, none, none⟩, fun a ha e he => ?_⟩
    have hmem : e ∈ actions.filterMap StoreAction.envelope := List.mem_filterMap.2 ⟨a, ha, he⟩
    have hex : ∃ e' ∈ actions.filterMap StoreAction.envelope, e'.event.id = e.event.id := ⟨e, hmem, rfl⟩
    dsimp only
    rw [dif_pos hex]
    exact hsame e hmem _ hex.choose_spec.1 hex.choose_spec.2.symm
  have hrun : ∀ as : List StoreAction, (∀ a ∈ as, a.Fits contentOf) →
      StoreInv (run StoreAction.step {} as) ∧ Typed contentOf (run StoreAction.step {} as) := by
    intro as has
    exact run_invariant step_inv empty_inv (admits_of_forall fun a ha _ => has a ha)
  obtain ⟨hinv, -⟩ := hrun actions hcontent
  refine ⟨hinv.nodup, hinv.edges, fun row hrow => ?_, ?_⟩
  · exact List.count_eq_one_of_mem hinv.envelopes.1 (hinv.envelopes.2 _ (List.mem_map_of_mem hrow))
  · rintro pre post rfl row hrow hstored row' hrow' hid
    refine run_frozen (hrun pre fun a ha => hcontent a (List.mem_append_left _ ha))
      (fun a ha => hcontent a (List.mem_append_right _ ha)) hrow hstored ?_ hid
    have hsplit : run StoreAction.step (run StoreAction.step {} pre) post = s :=
      List.foldl_append.symm
    rw [hsplit]
    exact hrow'

/-- An event is stored, pruned and stored again. -/
def revived : List StoreAction :=
  let d : Delivery := {
    envelope := ⟨{ Event.linked "y" "a" ["x"] with roundReceived := some 0 }, []⟩
    consensusTs := none
    now := .fin 0 }
  [.store d, .prune 0 (.fin 0) false (.fin 1), .store d]

theorem representation_invariant_revived :
    (run StoreAction.step {} (revived.take 2)).ids = [] ∧ (run StoreAction.step {} revived).ids = ["y"] ∧
    ∀ row ∈ (run StoreAction.step {} revived).events, ∀ p,
      (p, row.event.id) ∈ (run StoreAction.step {} revived).edges ↔ p ∈ row.event.parents := by
  refine ⟨by decide +kernel, by decide +kernel, (representation_invariant ?_).2.1⟩
  intro e he e' he' _
  have hone : ∀ e ∈ revived.filterMap StoreAction.envelope,
      e.event = { Event.linked "y" "a" ["x"] with roundReceived := some 0 } := by
    intro e he
    rcases List.mem_cons.1 he with rfl | he
    · rfl
    · obtain rfl := List.mem_singleton.1 he
      rfl
  rw [hone e he, hone e' he']

end Mdrj.L3
