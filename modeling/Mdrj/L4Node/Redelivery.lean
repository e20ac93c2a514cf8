import Mdrj.L3Store.Representation
import Mdrj.L4Node.Node

/-!
# Delivery is idempotent, but for missing columns

Envelopes whose events and hops are recorded are delivered once more. The
duplicate branch of `store_envelope` writes `consensus_ts`, `self_parent_id`
and `other_parent_id` where they are `NULL`, from values the sender chooses,
and no recompute follows. So a re-submitted envelope can move its event in
the total order (`resubmission_reorders`), and one whose values SQLite does
not bind raises, although no column is missing (`huge_timestamp_raises`). A
redelivery leaves the tables and the order as they are exactly when no
envelope has a value for a column that is `NULL`, nor one that cannot be bound
(`redelivery_unchanged_iff`).
-/
namespace Mdrj.L4
open Mdrj.Core Mdrj.L1 Mdrj.L2 Mdrj.L3

/-! ## Filling a row -/

/-- Columns of `row` that were `NULL` may have a value in `row'`. -/
def FilledTo (row row' : EventRow) : Prop :=
  ∃ c p q, row' = { row with event := { row.event with
    consensusTs := row.event.consensusTs.or c
    selfParentId := row.event.selfParentId.or p
    otherParentId := row.event.otherParentId.or q } }

theorem FilledTo.refl (row : EventRow) : FilledTo row row :=
  ⟨none, none, none, by simp only [Option.or_none]⟩

theorem FilledTo.trans {row row' row'' : EventRow} (h : FilledTo row row') (h' : FilledTo row' row'') :
    FilledTo row row'' := by
  obtain ⟨c, p, q, rfl⟩ := h
  obtain ⟨c', p', q', rfl⟩ := h'
  exact ⟨c.or c', p.or p', q.or q', by simp only [Option.or_assoc]⟩

theorem or_eq_left_of_or_or {α : Type} {a b c : Option α} (h : (a.or b).or c = a) : a.or b = a := by
  cases a with
  | some x => rfl
  | none =>
    cases b with
    | none => rfl
    | some y => cases h

theorem FilledTo.antisymm {row row' : EventRow} (h : FilledTo row row') (h' : FilledTo row' row) :
    row' = row := by
  obtain ⟨c, p, q, rfl⟩ := h
  obtain ⟨c', p', q', hrow⟩ := h'
  have hc := congrArg (fun r : EventRow => r.event.consensusTs) hrow
  have hp := congrArg (fun r : EventRow => r.event.selfParentId) hrow
  have hq := congrArg (fun r : EventRow => r.event.otherParentId) hrow
  dsimp only at hc hp hq
  rw [or_eq_left_of_or_or hc.symm, or_eq_left_of_or_or hp.symm, or_eq_left_of_or_or hq.symm]

theorem fillRow_filledTo (event : Event) (ts : Option Flt) (row : EventRow) :
    FilledTo row (DAGStorage.fillRow event ts row) := by
  unfold DAGStorage.fillRow
  split
  · exact ⟨_, _, _, rfl⟩
  · exact .refl row

/-- The envelope has a value for a `NULL` column of the row. A NaN is none:
SQLite keeps it as `NULL`. -/
def Fills (envelope : Envelope) (row : EventRow) : Prop :=
  row.event.id = envelope.event.id ∧ envelope.event.consensusTs.isSome = true ∧
    (row.event.consensusTs = none ∧ (envelope.event.consensusTs.bind real).isSome = true ∨
      row.event.selfParentId = none ∧ envelope.event.selfParentId.isSome = true ∨
      row.event.otherParentId = none ∧ envelope.event.otherParentId.isSome = true)

theorem or_eq_left_iff {α : Type} {a b : Option α} : a.or b = a ↔ ¬ (a = none ∧ b.isSome = true) := by
  cases a <;> cases b <;> simp

theorem fillRow_eq_iff {envelope : Envelope} {row : EventRow} :
    DAGStorage.fillRow envelope.event envelope.event.consensusTs row = row ↔ ¬ Fills envelope row := by
  unfold DAGStorage.fillRow Fills
  by_cases hfill : row.event.id = envelope.event.id ∧ envelope.event.consensusTs.isSome = true
  · rw [if_pos hfill]
    have hcols : ∀ {c p q}, ({ row with event := { row.event with
        consensusTs := c, selfParentId := p, otherParentId := q } } : EventRow) = row ↔
        c = row.event.consensusTs ∧ p = row.event.selfParentId ∧ q = row.event.otherParentId := by
      intro c p q
      constructor
      · intro h
        exact ⟨congrArg (fun r : EventRow => r.event.consensusTs) h,
          congrArg (fun r : EventRow => r.event.selfParentId) h,
          congrArg (fun r : EventRow => r.event.otherParentId) h⟩
      · rintro ⟨rfl, rfl, rfl⟩; rfl
    rw [hcols, or_eq_left_iff, or_eq_left_iff, or_eq_left_iff]
    simp only [hfill, true_and, not_or]
  · rw [if_neg hfill]
    exact ⟨fun _ h => hfill ⟨h.1, h.2.1⟩, fun _ => rfl⟩

/-- What a list of known envelopes does to a row. -/
def fillRows (envelopes : List (Envelope × Flt)) (row : EventRow) : EventRow :=
  envelopes.foldl (fun row p => DAGStorage.fillRow p.1.event p.1.event.consensusTs row) row

theorem fillRows_filledTo (envelopes : List (Envelope × Flt)) (row : EventRow) :
    FilledTo row (fillRows envelopes row) := by
  unfold fillRows
  induction envelopes generalizing row with
  | nil => exact .refl row
  | cons p envelopes ih => exact (fillRow_filledTo _ _ row).trans (ih _)

/-- A column that is filled in stays so: a list leaves a row as it is only
if every envelope does. -/
theorem fillRows_eq_iff {envelopes : List (Envelope × Flt)} {row : EventRow} :
    fillRows envelopes row = row ↔ ∀ p ∈ envelopes, ¬ Fills p.1 row := by
  induction envelopes with
  | nil => exact ⟨fun _ p hp => absurd hp List.not_mem_nil, fun _ => rfl⟩
  | cons p envelopes ih =>
    have hcons : fillRows (p :: envelopes) row = fillRows envelopes
        (DAGStorage.fillRow p.1.event p.1.event.consensusTs row) := rfl
    rw [List.forall_mem_cons, ← ih, ← fillRow_eq_iff, hcons]
    constructor
    · intro h
      have hfirst : DAGStorage.fillRow p.1.event p.1.event.consensusTs row = row := by
        refine (fillRow_filledTo _ _ row).antisymm ?_
        have := fillRows_filledTo envelopes (DAGStorage.fillRow p.1.event p.1.event.consensusTs row)
        rwa [h] at this
      exact ⟨hfirst, by rwa [hfirst] at h⟩
    · rintro ⟨h1, h2⟩
      rw [h1, h2]

/-! ## Ingesting what is there -/

/-- The event is stored with the same hashed fields, and so are the hops. -/
structure Redelivered (s : DAGStorage) (envelope : Envelope) : Prop where
  event : ∃ row ∈ s.events, row.event.id = envelope.event.id ∧ row.event.cls = envelope.event.cls ∧
    row.event.source = envelope.event.source ∧ row.event.tsLocal = envelope.event.tsLocal ∧
    row.event.vclock = envelope.event.vclock ∧ row.event.parents = envelope.event.parents ∧
    row.event.payload = envelope.event.payload
  hops : ∀ hop ∈ envelope.pathMeta, hop ∈ (Dict.get s.envelopes envelope.event.id).getD []

theorem Redelivered.known {s : DAGStorage} {envelope : Envelope} (h : Redelivered s envelope) :
    envelope.event.id ∈ s.ids := by
  obtain ⟨row, hrow, hid, -⟩ := h.event
  exact hid ▸ List.mem_map_of_mem hrow

/-- The hops of a redelivered envelope are merged into a list that has them. -/
theorem mergePathMeta_recorded {s : DAGStorage} (hinv : Tables s) {x : String} {hops : List Hop}
    (hx : x ∈ s.ids) (h : ∀ hop ∈ hops, hop ∈ (Dict.get s.envelopes x).getD []) :
    s.mergePathMeta x hops = s := by
  obtain ⟨stored, hget⟩ := Dict.mem_keys.1 (hinv.envelopes.2 x hx)
  have hnodup : stored.Nodup := hinv.hops (x, stored) (Dict.mem_of_get hget)
  unfold DAGStorage.mergePathMeta
  rw [hget] at h ⊢
  rw [Option.getD_some] at h ⊢
  dsimp only
  rw [DAGStorage.mergeHops_of_subset hnodup h, Dict.set_get_self hget]

theorem ingestLoop_redelivered (envelopes : List (Envelope × Flt)) :
    ∀ (n : Node) (newIds : List String), StoreInv n.storage →
      (∀ p ∈ envelopes, p.1.event.id ∈ n.storage.ids ∧
        ∀ hop ∈ p.1.pathMeta, hop ∈ (Dict.get n.storage.envelopes p.1.event.id).getD []) →
      ∃ clock, Node.ingestLoop n newIds envelopes =
        ⟨{ n with
            storage := { n.storage with events := n.storage.events.map (fillRows envelopes) }
            vectorClock := clock }, .ok newIds⟩ := by
  induction envelopes with
  | nil =>
    intro n newIds _ _
    have hnil : fillRows [] = id := rfl
    rw [hnil, List.map_id]
    exact ⟨n.vectorClock, rfl⟩
  | cons p envelopes ih =>
    intro n newIds hinv hall
    obtain ⟨hid, hhops⟩ := hall p List.mem_cons_self
    have hpersist : n.persistEnvelope p.1 p.2 =
        ⟨{ n with
            storage := { n.storage with
              events := n.storage.events.map (DAGStorage.fillRow p.1.event p.1.event.consensusTs) }
            vectorClock := mergeClock n.vectorClock p.1.event.vclock }, .ok false⟩ := by
      unfold Node.persistEnvelope
      rw [DAGStorage.storeEnvelope_known hid, mergePathMeta_recorded hinv.tables hid hhops]
    have hrows := contents_fillRows p.1.event p.1.event.consensusTs n.storage.events
    obtain ⟨clock, hrest⟩ := ih
      { n with
        storage := { n.storage with
          events := n.storage.events.map (DAGStorage.fillRow p.1.event p.1.event.consensusTs) }
        vectorClock := mergeClock n.vectorClock p.1.event.vclock }
      newIds (hinv.of_rows rfl rfl hrows) fun q hq => by
        obtain ⟨hqid, hqhops⟩ := hall q (List.mem_cons_of_mem _ hq)
        refine ⟨?_, hqhops⟩
        unfold DAGStorage.ids
        dsimp only
        rw [DAGStorage.ids_fillRows]
        exact hqid
    unfold Node.ingestLoop
    rw [hpersist]
    refine ⟨clock, hrest.trans ?_⟩
    dsimp only
    rw [List.map_map]
    rfl

/-- Known envelopes whose values can be bound are ingested without a new id
and without a recompute. -/
theorem ingestEnvelopes_redelivered {n : Node} (hinv : StoreInv n.storage) {envelopes : List (Envelope × Flt)}
    (hre : ∀ p ∈ envelopes, Redelivered n.storage p.1) :
    ∃ clock, n.ingestEnvelopes envelopes =
      ⟨{ n with
          storage := { n.storage with events := n.storage.events.map (fillRows envelopes) }
          vectorClock := clock }, .ok []⟩ := by
  obtain ⟨clock, hloop⟩ := ingestLoop_redelivered envelopes n [] hinv fun p hp =>
    ⟨(hre p hp).known, (hre p hp).hops⟩
  refine ⟨clock, ?_⟩
  unfold Node.ingestEnvelopes
  rw [hloop]
  rfl

/-! ## What a peer may send -/

/-- `_persist_envelope` of what a peer may send. -/
def persistIncoming (n : Node) (incoming : Incoming) (now : Flt) : Call Bool :=
  match n.storage.bindError incoming incoming.envelope.event.consensusTs with
  | some err => ⟨n, .error err⟩
  | none => n.persistEnvelope incoming.envelope now

def ingestIncomingLoop : Node → List String → List (Incoming × Flt) → Call (List String)
  | n, newIds, [] => ⟨n, .ok newIds⟩
  | n, newIds, (incoming, now) :: rest =>
    match persistIncoming n incoming now with
    | ⟨n, .error err⟩ => ⟨n, .error err⟩
    | ⟨n, .ok stored⟩ =>
      ingestIncomingLoop n (if stored then newIds ++ [incoming.envelope.event.id] else newIds) rest

/-- `ingest_envelopes` of what a peer may send.
mirrors mdrj/node.py:915-930 -/
def ingestIncoming (n : Node) (incoming : List (Incoming × Flt)) : Call (List String) :=
  match ingestIncomingLoop n [] incoming with
  | ⟨n, .error err⟩ => ⟨n, .error err⟩
  | ⟨n, .ok newIds⟩ =>
    if newIds.isEmpty then ⟨n, .ok newIds⟩
    else
      match n.recomputeConsensus with
      | ⟨n, .error err⟩ => ⟨n, .error err⟩
      | ⟨n, .ok ()⟩ => ⟨n, .ok newIds⟩

/-- The envelopes alone, where every value can be bound. -/
def plainOf (incoming : List (Incoming × Flt)) : List (Envelope × Flt) :=
  incoming.map fun p => (p.1.envelope, p.2)

/-- Envelopes without such a value are ingested as they are. -/
theorem ingestIncoming_plain {incoming : List (Incoming × Flt)}
    (h : ∀ p ∈ incoming, p.1.loneLink = false ∧ p.1.hugeTimestamp = false) (n : Node) :
    ingestIncoming n incoming = n.ingestEnvelopes (plainOf incoming) := by
  have hloop : ∀ (n : Node) (newIds : List String),
      ingestIncomingLoop n newIds incoming = Node.ingestLoop n newIds (plainOf incoming) := by
    induction incoming with
    | nil => intro n newIds; rfl
    | cons p incoming ih =>
      intro n newIds
      obtain ⟨hlink, htime⟩ := h p List.mem_cons_self
      have hcons : plainOf (p :: incoming) = (p.1.envelope, p.2) :: plainOf incoming := rfl
      have hpersist : persistIncoming n p.1 p.2 = n.persistEnvelope p.1.envelope p.2 := by
        unfold persistIncoming
        rw [DAGStorage.bindError_plain hlink htime]
      rw [hcons]
      unfold ingestIncomingLoop Node.ingestLoop
      rw [hpersist]
      generalize n.persistEnvelope p.1.envelope p.2 = call
      obtain ⟨n, err | stored⟩ := call
      · rfl
      · exact ih (fun q hq => h q (List.mem_cons_of_mem _ hq)) n _
  unfold ingestIncoming Node.ingestEnvelopes
  exact hloop n [] ▸ rfl

/-- The values of a known event can be bound. -/
def Bound (incoming : Incoming) : Prop :=
  incoming.hugeTimestamp = false ∧
    (incoming.loneLink = true → incoming.envelope.event.consensusTs = none)

theorem ingestIncomingLoop_bound (incoming : List (Incoming × Flt)) :
    ∀ (n : Node) (newIds : List String),
      (∀ p ∈ incoming, p.1.envelope.event.id ∈ n.storage.ids) → (∀ p ∈ incoming, Bound p.1) →
      ingestIncomingLoop n newIds incoming = Node.ingestLoop n newIds (plainOf incoming) := by
  induction incoming with
  | nil => intro n newIds _ _; rfl
  | cons p incoming ih =>
    intro n newIds hids hbound
    have hid := hids p List.mem_cons_self
    have hbind := (DAGStorage.bindError_known hid).2 (hbound p List.mem_cons_self)
    have hcons : plainOf (p :: incoming) = (p.1.envelope, p.2) :: plainOf incoming := rfl
    rw [hcons]
    unfold ingestIncomingLoop persistIncoming Node.ingestLoop
    rw [hbind]
    unfold Node.persistEnvelope
    dsimp only
    rw [DAGStorage.storeEnvelope_known hid]
    refine ih _ _ (fun q hq => ?_) fun q hq => hbound q (List.mem_cons_of_mem _ hq)
    unfold DAGStorage.ids
    dsimp only
    rw [DAGStorage.ids_fillRows]
    exact hids q (List.mem_cons_of_mem _ hq)

/-- One envelope that cannot be bound and the batch raises. -/
theorem ingestIncomingLoop_unbound (incoming : List (Incoming × Flt)) :
    ∀ (n : Node) (newIds : List String),
      (∀ p ∈ incoming, p.1.envelope.event.id ∈ n.storage.ids) → (∃ p ∈ incoming, ¬ Bound p.1) →
      ∃ err, (ingestIncomingLoop n newIds incoming).result = .error err := by
  induction incoming with
  | nil => rintro n newIds _ ⟨p, hp, -⟩; cases hp
  | cons p incoming ih =>
    intro n newIds hids hun
    have hid := hids p List.mem_cons_self
    unfold ingestIncomingLoop persistIncoming
    cases hbind : n.storage.bindError p.1 p.1.envelope.event.consensusTs with
    | some err => exact ⟨err, rfl⟩
    | none =>
      have hp : Bound p.1 := (DAGStorage.bindError_known hid).1 hbind
      obtain ⟨q, hq, hqun⟩ := hun
      have hrest : q ∈ incoming := (List.mem_cons.1 hq).resolve_left fun h => hqun (h ▸ hp)
      unfold Node.persistEnvelope
      rw [DAGStorage.storeEnvelope_known hid]
      refine ih _ _ (fun q hq => ?_) ⟨q, hrest, hqun⟩
      unfold DAGStorage.ids
      dsimp only
      rw [DAGStorage.ids_fillRows]
      exact hids q (List.mem_cons_of_mem _ hq)

/-- **Idempotent delivery.** Envelopes whose events and hops are recorded
leave the tables and the total order alone, and bring no new id, exactly
when none of them has a value for a `NULL` column, nor one that cannot be
bound. -/
theorem redelivery_unchanged_iff {n : Node} (hinv : StoreInv n.storage)
    {incoming : List (Incoming × Flt)} (hre : ∀ p ∈ incoming, Redelivered n.storage p.1.envelope) :
    ((ingestIncoming n incoming).result = .ok [] ∧
      (ingestIncoming n incoming).node.storage.events = n.storage.events ∧
      (ingestIncoming n incoming).node.storage.edges = n.storage.edges ∧
      (ingestIncoming n incoming).node.storage.envelopes = n.storage.envelopes ∧
      totalOrder (ingestIncoming n incoming).node.storage.allEvents [] =
        totalOrder n.storage.allEvents []) ↔
    ∀ p ∈ incoming, Bound p.1 ∧ ∀ row ∈ n.storage.events, ¬ Fills p.1.envelope row := by
  have hids : ∀ p ∈ incoming, p.1.envelope.event.id ∈ n.storage.ids := fun p hp => (hre p hp).known
  by_cases hbound : ∀ p ∈ incoming, Bound p.1
  · have hplain : ingestIncoming n incoming = n.ingestEnvelopes (plainOf incoming) := by
      unfold ingestIncoming Node.ingestEnvelopes
      exact ingestIncomingLoop_bound incoming n [] hids hbound ▸ rfl
    have hre' : ∀ p ∈ plainOf incoming, Redelivered n.storage p.1 := by
      intro p hp
      obtain ⟨q, hq, rfl⟩ := List.mem_map.1 hp
      exact hre q hq
    obtain ⟨clock, hingest⟩ := ingestEnvelopes_redelivered hinv hre'
    rw [hplain, hingest]
    have hmap : n.storage.events.map (fillRows (plainOf incoming)) = n.storage.events ↔
        ∀ row ∈ n.storage.events, fillRows (plainOf incoming) row = row := by
      conv_lhs => rhs; rw [← List.map_id n.storage.events]
      exact List.map_inj_left
    constructor
    · rintro ⟨-, hevents, -⟩ p hp
      refine ⟨hbound p hp, fun row hrow => ?_⟩
      exact fillRows_eq_iff.1 (hmap.1 hevents row hrow) (p.1.envelope, p.2) (List.mem_map_of_mem hp)
    · intro h
      have hevents := hmap.2 fun row hrow => fillRows_eq_iff.2 fun p hp => by
        obtain ⟨q, hq, rfl⟩ := List.mem_map.1 hp
        exact (h q hq).2 row hrow
      refine ⟨rfl, hevents, rfl, rfl, ?_⟩
      dsimp only
      rw [hevents]
  · refine ⟨fun h => ?_, fun h => absurd (fun p hp => (h p hp).1) hbound⟩
    obtain ⟨p, hp⟩ := not_forall.1 hbound
    obtain ⟨hmem, hun⟩ := Classical.not_imp.1 hp
    obtain ⟨err, herr⟩ := ingestIncomingLoop_unbound incoming n [] hids ⟨p, hmem, hun⟩
    have hresult : (ingestIncoming n incoming).result = .error err := by
      unfold ingestIncoming
      split
      · rename_i n' err' heq
        rw [heq] at herr
        exact herr
      · rename_i n' newIds heq
        rw [heq] at herr
        cases herr
    rw [hresult] at h
    cases h.1

/-- Two events without timestamp, each with its row of hops. -/
def untimed : Node where
  config := { nodeId := "a" }
  membership := ⟨[⟨"a", "", "node", true⟩], "h"⟩
  storage := {
    events := [⟨Event.linked "x" "a" [], .fin 0⟩, ⟨Event.linked "y" "b" [], .fin 1⟩]
    envelopes := [("x", []), ("y", [])] }

theorem untimed_inv : StoreInv untimed.storage := by
  refine ⟨by decide, ?_, by decide, by decide⟩
  intro row hrow p
  rcases List.mem_cons.1 hrow with rfl | hrow
  · exact ⟨nofun, nofun⟩
  · obtain rfl := List.mem_singleton.1 hrow
    exact ⟨nofun, nofun⟩

/-- The event `y` with a timestamp of the sender's choice. -/
def resubmitted (ts : Option Flt) : Envelope := ⟨{ Event.linked "y" "b" [] with consensusTs := ts }, []⟩

theorem resubmitted_redelivered (ts : Option Flt) : Redelivered untimed.storage (resubmitted ts) :=
  ⟨⟨_, List.mem_cons_of_mem _ List.mem_cons_self, rfl, rfl, rfl, rfl, rfl, rfl, rfl⟩, nofun⟩

/-- Without a timestamp neither a column is filled nor a link bound. -/
theorem redelivery_unchanged_untimed :
    (ingestIncoming untimed [(⟨resubmitted none, true, false⟩, .fin 2)]).node.storage.events =
      untimed.storage.events := by
  refine ((redelivery_unchanged_iff untimed_inv ?_).2 ?_).2.1
  · intro p hp
    obtain rfl := List.mem_singleton.1 hp
    exact resubmitted_redelivered none
  · intro p hp
    obtain rfl := List.mem_singleton.1 hp
    refine ⟨⟨rfl, fun _ => rfl⟩, fun row _ hfills => ?_⟩
    cases hfills.2.1

/-- A timestamp that comes with a known event moves it to the front. -/
theorem resubmission_reorders : ∃ (n : Node) (incoming : Incoming) (now : Flt),
    StoreInv n.storage ∧ Redelivered n.storage incoming.envelope ∧
    (ingestIncoming n [(incoming, now)]).result = .ok [] ∧
    (totalOrder n.storage.allEvents []).map Event.id = ["x", "y"] ∧
    (totalOrder (ingestIncoming n [(incoming, now)]).node.storage.allEvents []).map Event.id =
      ["y", "x"] :=
  ⟨untimed, ⟨resubmitted (some (.fin 5)), false, false⟩, .fin 2, untimed_inv, resubmitted_redelivered _, rfl,
    by decide +kernel, by decide +kernel⟩

/-- An integer timestamp beyond 64 bits, of an event that has one. -/
theorem huge_timestamp_raises (n : Node) {envelope : Envelope} (now : Flt)
    (hid : envelope.event.id ∈ n.storage.ids) :
    (ingestIncoming n [(⟨envelope, false, true⟩, now)]).result = .error .overflowError := by
  have hbind : n.storage.bindError ⟨envelope, false, true⟩ envelope.event.consensusTs = some .overflowError := by
    unfold DAGStorage.bindError
    rw [if_pos hid]
    rfl
  unfold ingestIncoming ingestIncomingLoop persistIncoming
  rw [hbind]

end Mdrj.L4
