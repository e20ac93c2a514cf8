import Mdrj.L3Store.Storage

/-!
# What a write does

`store_envelope` in equations, one for each of its three ways: a known id
(`storeEnvelope_known`), a new one (`storeEnvelope_new`) and a refusal
(`storeEnvelope_refused`). Everything else about the tables is derived from
these, from the membership lemmas for edges and hops, and from
`replaceConsensusState_eq`, which turns the loop over states into one update
of every row.
-/
namespace Mdrj.L3
open Mdrj.Core Mdrj.L1 Mdrj.L2

namespace DAGStorage
variable {s : DAGStorage}

/-! ## Edges and hops -/

theorem addEdge_gathers (x : String) :
    Gathers id (fun parent => (parent, x)) (fun _ => False) fun edges parent => addEdge edges (parent, x) := by
  refine ⟨fun h => if_pos ?_, fun h => if_neg fun hmem => h (.inr ?_)⟩
  · simpa using h
  · simpa using hmem

theorem mem_addEdges {edges : List (String × String)} {parents : List String} {x : String}
    {e : String × String} :
    e ∈ parents.foldl (fun edges parent => addEdge edges (parent, x)) edges ↔
      e ∈ edges ∨ ∃ p ∈ parents, e = (p, x) := by
  have hmem := (addEdge_gathers x).mem_foldl parents (l := edges) (k := e)
  simpa [eq_comm] using hmem

/-- The loop of `_merge_path_meta`, from any list of hops. -/
def addHops (merged hops : List Hop) : List Hop :=
  hops.foldl (fun merged hop => if hop ∈ merged then merged else merged ++ [hop]) merged

theorem mergeHops_eq (existing new : List Hop) :
    mergeHops existing new = addHops (addHops [] existing) new := List.foldl_append

theorem addHops_gathers : Gathers id id (fun _ => False) fun (merged : List Hop) hop =>
    if hop ∈ merged then merged else merged ++ [hop] := by
  refine ⟨fun h => if_pos ?_, fun h => if_neg fun hmem => h (.inr ?_)⟩
  · simpa using h
  · simpa using hmem

theorem mem_addHops {merged hops : List Hop} {hop : Hop} :
    hop ∈ addHops merged hops ↔ hop ∈ merged ∨ hop ∈ hops := by
  have hmem := addHops_gathers.mem_foldl hops (l := merged) (k := hop)
  simpa [addHops] using hmem

theorem nodup_addHops {merged hops : List Hop} (h : merged.Nodup) : (addHops merged hops).Nodup := by
  have hnodup := addHops_gathers.nodup_foldl hops (l := merged) (by rwa [List.map_id])
  rwa [List.map_id] at hnodup

/-- Hops that are all there, once, stay as they are. -/
theorem addHops_of_subset {merged hops : List Hop} (h : ∀ hop ∈ hops, hop ∈ merged) :
    addHops merged hops = merged := by
  unfold addHops
  induction hops with
  | nil => rfl
  | cons hop hops ih =>
    rw [List.foldl_cons, if_pos (h hop List.mem_cons_self)]
    exact ih fun hop' hmem => h hop' (List.mem_cons_of_mem _ hmem)

theorem addHops_append {merged hops : List Hop} (h : (merged ++ hops).Nodup) :
    addHops merged hops = merged ++ hops := by
  induction hops generalizing merged with
  | nil => rw [List.append_nil]; rfl
  | cons hop hops ih =>
    have hnot : hop ∉ merged := fun hmem =>
      (List.nodup_append.1 h).2.2 hop hmem hop List.mem_cons_self rfl
    have hstep : addHops merged (hop :: hops) = addHops (merged ++ [hop]) hops := by
      unfold addHops
      rw [List.foldl_cons, if_neg hnot]
    rw [List.append_cons] at h
    rw [hstep, ih h, ← List.append_cons]

theorem mem_mergeHops {existing new : List Hop} {hop : Hop} :
    hop ∈ mergeHops existing new ↔ hop ∈ existing ∨ hop ∈ new := by
  rw [mergeHops_eq, mem_addHops, mem_addHops]
  simp

theorem nodup_mergeHops (existing new : List Hop) : (mergeHops existing new).Nodup := by
  rw [mergeHops_eq]
  exact nodup_addHops (nodup_addHops List.nodup_nil)

/-- Merging recorded hops into a list without repetition changes nothing. -/
theorem mergeHops_of_subset {existing new : List Hop} (hn : existing.Nodup)
    (h : ∀ hop ∈ new, hop ∈ existing) : mergeHops existing new = existing := by
  have hfirst : addHops [] existing = [] ++ existing := addHops_append hn
  rw [mergeHops_eq, hfirst, List.nil_append, addHops_of_subset h]

/-! ## `store_envelope` -/

/-- The update of a known row: missing columns are filled in when a
timestamp is at hand. -/
def fillRow (event : Event) (consensusTs : Option Flt) (row : EventRow) : EventRow :=
  if row.event.id = event.id ∧ consensusTs.isSome = true then
    { row with event := { row.event with
      consensusTs := row.event.consensusTs.or (consensusTs.bind real)
      selfParentId := row.event.selfParentId.or event.selfParentId
      otherParentId := row.event.otherParentId.or event.otherParentId } }
  else row

variable {envelope : Envelope} {consensusTs : Option Flt} {now : Flt}

theorem storeEnvelope_known (h : envelope.event.id ∈ s.ids) :
    s.storeEnvelope envelope consensusTs now =
      .ok ({ s.mergePathMeta envelope.event.id envelope.pathMeta with
        events := s.events.map (fillRow envelope.event consensusTs) }, false) := by
  unfold storeEnvelope fillRow
  dsimp only
  rw [if_pos h]
  cases consensusTs with
  | none => simp [mergePathMeta]
  | some ts => simp [mergePathMeta]

theorem storeEnvelope_new (h : envelope.event.id ∉ s.ids) (hins : insertError envelope.event = none) :
    s.storeEnvelope envelope consensusTs now =
      .ok ({ s.mergePathMeta envelope.event.id envelope.pathMeta with
        events := s.events ++ [⟨insertColumns envelope.event consensusTs, now⟩]
        edges := envelope.event.parents.foldl
          (fun edges parent => addEdge edges (parent, envelope.event.id)) s.edges }, true) := by
  unfold storeEnvelope
  dsimp only
  rw [if_neg h, hins]
  rfl

theorem storeEnvelope_refused {err : PyError} (h : envelope.event.id ∉ s.ids)
    (hins : insertError envelope.event = some err) :
    s.storeEnvelope envelope consensusTs now = .error err := by
  unfold storeEnvelope
  dsimp only
  rw [if_neg h, hins]

/-- A call that returns has filled in the row of a known id, or has added the
row and the edges of a new one. -/
theorem storeEnvelope_cases {s' : DAGStorage} {stored : Bool}
    (h : s.storeEnvelope envelope consensusTs now = .ok (s', stored)) :
    (envelope.event.id ∈ s.ids ∧ stored = false ∧
      s' = { s.mergePathMeta envelope.event.id envelope.pathMeta with
        events := s.events.map (fillRow envelope.event consensusTs) }) ∨
    (envelope.event.id ∉ s.ids ∧ insertError envelope.event = none ∧ stored = true ∧
      s' = { s.mergePathMeta envelope.event.id envelope.pathMeta with
        events := s.events ++ [⟨insertColumns envelope.event consensusTs, now⟩]
        edges := envelope.event.parents.foldl
          (fun edges parent => addEdge edges (parent, envelope.event.id)) s.edges }) := by
  by_cases hid : envelope.event.id ∈ s.ids
  · rw [storeEnvelope_known hid] at h
    obtain ⟨rfl, rfl⟩ := Prod.mk.inj (Except.ok.inj h)
    exact .inl ⟨hid, rfl, rfl⟩
  · cases hins : insertError envelope.event with
    | some err =>
      rw [storeEnvelope_refused hid hins] at h
      cases h
    | none =>
      rw [storeEnvelope_new hid hins] at h
      obtain ⟨rfl, rfl⟩ := Prod.mk.inj (Except.ok.inj h)
      exact .inr ⟨hid, rfl, rfl, rfl⟩

/-- Where the values can be bound, a peer's envelope is stored as any other. -/
theorem storeIncoming_bound {incoming : Incoming} (h : s.bindError incoming consensusTs = none) :
    s.storeIncoming incoming consensusTs now = s.storeEnvelope incoming.envelope consensusTs now := by
  unfold storeIncoming
  rw [h]

theorem bindError_plain {incoming : Incoming} (hlink : incoming.loneLink = false)
    (htime : incoming.hugeTimestamp = false) : s.bindError incoming consensusTs = none := by
  unfold bindError
  simp [hlink, htime]

/-- A known event is refused for its timestamp, or for a link that comes with
one. -/
theorem bindError_known {incoming : Incoming} (h : incoming.envelope.event.id ∈ s.ids) :
    s.bindError incoming consensusTs = none ↔ incoming.hugeTimestamp = false ∧
      (incoming.loneLink = true → consensusTs = none) := by
  unfold bindError
  rw [if_pos h]
  cases incoming.hugeTimestamp <;> cases incoming.loneLink <;> cases consensusTs <;> simp

/-- A new event is refused for either. -/
theorem bindError_new {incoming : Incoming} (h : incoming.envelope.event.id ∉ s.ids) :
    s.bindError incoming consensusTs = none ↔ incoming.hugeTimestamp = false ∧ incoming.loneLink = false := by
  unfold bindError
  rw [if_neg h]
  cases incoming.hugeTimestamp <;> cases incoming.loneLink <;> simp

/-- What does not read the columns that are filled in. -/
def Unfilled {β : Type} (f : EventRow → β) : Prop :=
  ∀ (row : EventRow) (ts : Option Flt) (selfParent otherParent : Option String),
    f { row with event := { row.event with
      consensusTs := ts, selfParentId := selfParent, otherParentId := otherParent } } = f row

theorem Unfilled.fillRow {β : Type} {f : EventRow → β} (hf : Unfilled f) (event : Event) (row : EventRow) :
    f (fillRow event consensusTs row) = f row := by
  unfold DAGStorage.fillRow
  split
  · exact hf row _ _ _
  · rfl

theorem Unfilled.fillRows {β : Type} {f : EventRow → β} (hf : Unfilled f) (event : Event) (rows : List EventRow) :
    (rows.map (DAGStorage.fillRow event consensusTs)).map f = rows.map f := by
  rw [List.map_map]
  exact List.map_congr_left fun row _ => hf.fillRow event row

theorem unfilled_id : Unfilled fun row => row.event.id := fun _ _ _ _ => rfl

theorem unfilled_parents : Unfilled fun row => (row.event.id, row.event.parents) := fun _ _ _ _ => rfl

@[simp] theorem fillRow_id (event : Event) (row : EventRow) :
    (fillRow event consensusTs row).event.id = row.event.id := unfilled_id.fillRow event row

@[simp] theorem ids_fillRows (event : Event) (rows : List EventRow) :
    (rows.map (fillRow event consensusTs)).map (fun row => row.event.id) =
      rows.map fun row => row.event.id := unfilled_id.fillRows event rows

/-- Of what filling in leaves alone, a known id changes nothing and a new one
adds its own row. -/
theorem storeEnvelope_map {β : Type} {f : EventRow → β} {s' : DAGStorage} {stored : Bool} (hf : Unfilled f)
    (h : s.storeEnvelope envelope consensusTs now = .ok (s', stored)) :
    envelope.event.id ∈ s.ids ∧ stored = false ∧ s'.events.map f = s.events.map f ∨
      envelope.event.id ∉ s.ids ∧ stored = true ∧
        s'.events.map f = s.events.map f ++ [f ⟨insertColumns envelope.event consensusTs, now⟩] := by
  rcases storeEnvelope_cases h with ⟨hid, rfl, rfl⟩ | ⟨hid, -, rfl, rfl⟩
  · exact .inl ⟨hid, rfl, hf.fillRows envelope.event s.events⟩
  · exact .inr ⟨hid, rfl, List.map_append⟩

/-- Each row was there before, or is that of the envelope. -/
theorem storeEnvelope_row {β : Type} {f : EventRow → β} {s' : DAGStorage} {stored : Bool} (hf : Unfilled f)
    (h : s.storeEnvelope envelope consensusTs now = .ok (s', stored)) {row : EventRow}
    (hrow : row ∈ s'.events) :
    (∃ row₀ ∈ s.events, f row₀ = f row) ∨ f row = f ⟨insertColumns envelope.event consensusTs, now⟩ := by
  have hmem : f row ∈ s'.events.map f := List.mem_map_of_mem hrow
  rcases storeEnvelope_map hf h with ⟨-, -, hmap⟩ | ⟨-, -, hmap⟩
  · rw [hmap] at hmem
    exact .inl (List.mem_map.1 hmem)
  · rw [hmap, List.mem_append, List.mem_singleton] at hmem
    exact hmem.imp_left List.mem_map.1

/-- The id of the event is known or new, and stored either way. -/
theorem storeEnvelope_ids {s' : DAGStorage} {stored : Bool}
    (h : s.storeEnvelope envelope consensusTs now = .ok (s', stored)) :
    envelope.event.id ∈ s.ids ∧ stored = false ∧ s'.ids = s.ids ∨
      envelope.event.id ∉ s.ids ∧ stored = true ∧ s'.ids = s.ids ++ [envelope.event.id] :=
  storeEnvelope_map unfilled_id h

theorem storeEnvelope_accepts (now : Flt)
    (h : envelope.event.id ∈ s.ids ∨ insertError envelope.event = none) :
    ∃ s' stored, s.storeEnvelope envelope consensusTs now = .ok (s', stored) := by
  by_cases hid : envelope.event.id ∈ s.ids
  · exact ⟨_, _, storeEnvelope_known hid⟩
  · exact ⟨_, _, storeEnvelope_new hid (h.resolve_left hid)⟩

/-! ## `replace_consensus_state` -/

/-- The states applied to one row, in order. -/
def applyStates (states : List ConsensusState) (row : EventRow) : EventRow :=
  states.foldl (fun row state =>
    if row.event.id = state.eventId then { row with event := applyState state row.event } else row) row

theorem replaceConsensusState_eq (s : DAGStorage) (states : List ConsensusState) :
    s.replaceConsensusState states = { s with events := s.events.map (applyStates states) } := by
  unfold replaceConsensusState
  induction states generalizing s with
  | nil =>
    have hnil : applyStates [] = id := rfl
    rw [hnil, List.map_id]
    rfl
  | cons state states ih =>
    rw [List.foldl_cons, ih]
    dsimp only
    rw [List.map_map]
    rfl

/-- What no state changes of a row. -/
theorem applyStates_ind {P : EventRow → Prop} (states : List ConsensusState) (row : EventRow)
    (h : P row) (hstep : ∀ state row, P row → P { row with event := applyState state row.event }) :
    P (applyStates states row) := by
  unfold applyStates
  induction states generalizing row with
  | nil => exact h
  | cons state states ih =>
    rw [List.foldl_cons]
    split
    · exact ih _ (hstep state row h)
    · exact ih _ h

theorem replaceConsensusState_map {β : Type} {f : EventRow → β}
    (hf : ∀ state row, f { row with event := applyState state row.event } = f row) (s : DAGStorage)
    (states : List ConsensusState) : (s.replaceConsensusState states).events.map f = s.events.map f := by
  rw [replaceConsensusState_eq, List.map_map]
  refine List.map_congr_left fun row _ => ?_
  exact applyStates_ind (P := fun row' => f row' = f row) states row rfl
    fun state row' h => (hf state row').trans h

/-! ## Stores whose rows agree -/

section Rows
variable {s s' : DAGStorage} {β : Type} {f : EventRow → β}

theorem exists_row (h : s'.events.map f = s.events.map f) {row : EventRow} (hrow : row ∈ s'.events) :
    ∃ row₀ ∈ s.events, f row₀ = f row := by
  have hmem : f row ∈ s.events.map f := by
    rw [← h]
    exact List.mem_map_of_mem hrow
  exact List.mem_map.1 hmem

theorem ids_of_rows (id : β → String) (hid : ∀ row, id (f row) = row.event.id)
    (h : s'.events.map f = s.events.map f) : s'.ids = s.ids := by
  have hids := congrArg (List.map id) h
  rw [List.map_map, List.map_map] at hids
  unfold ids
  simpa only [Function.comp_def, hid] using hids

end Rows

theorem replaceConsensusState_ids (s : DAGStorage) (states : List ConsensusState) :
    (s.replaceConsensusState states).ids = s.ids :=
  replaceConsensusState_map (fun _ _ => rfl) s states

theorem getEnvelope_id {s : DAGStorage} {eventId : String} {envelope : Envelope}
    (h : s.getEnvelope eventId = some envelope) : envelope.event.id = eventId := by
  unfold getEnvelope getEvent at h
  rw [Option.map_map, Option.map_eq_some_iff] at h
  obtain ⟨row, hrow, rfl⟩ := h
  simpa [loadEvent] using List.find?_some hrow

end DAGStorage
end Mdrj.L3
