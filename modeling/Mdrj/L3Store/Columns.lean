import Mdrj.Core.Runs
import Mdrj.Core.Table
import Mdrj.L1Encoding.Codec
import Mdrj.L3Store.Writes

/-!
# Pruning, column by column

`prune_under_checkpoint` works on texts: it copies the payload's text into a
hash, and decodes the JSON columns of each row for the caller, between the
statements of one transaction. What is stored need not decode, so a call may
raise when half of its rows are done. Here the tables hold the columns as
SQLite does; `json.loads` is a parameter that may raise, and so is the merging
of hops, of which only the text it writes matters. A transaction that raises
leaves the tables as they were.

Results:
* `prune_contract`: what a call removes, keeps, records and returns, for every
  store and every argument; and no id ever leaves the events and skeletons.
* `prune_refines`: on tables that were written by the node, the call is the
  one of the storage model.
-/
namespace Mdrj.L3
open Mdrj.Core Mdrj.L1 Mdrj.L2

/-! ## Tables -/

/-- The columns of `events` but for the key.
mirrors mdrj/storage.py:44-72 -/
structure EventColumns where
  cls : String
  source : String
  creator : Option String
  tsLocal : Flt
  vclock : String
  parents : String
  selfParentId : Option String
  otherParentId : Option String
  payload : String
  sig : Option String
  consensusTs : Option Flt
  lamportTs : Option Int
  round : Option Int
  roundReceived : Option Int
  isWitness : Option Int
  isFamousWitness : Option Int
  fameDecided : Option Int
  fameDecisionRound : Option Int
  fameDecisionKind : Option String
  fameNeedsCoin : Option Int
  fameCoinUsed : Option Int
  fameCoinRound : Option Int
  fameVoteRound : Option Int
  fameVoteYes : Option Int
  fameVoteNo : Option Int
  createdAt : Flt

/-- mirrors mdrj/storage.py:117-124 -/
structure SkeletonColumns where
  cls : String
  parentIds : String
  roundReceived : Option Int
  payloadHash : String
  archivedAt : Flt
  deriving DecidableEq

/-- The database; `others` is what pruning and storing do not name. -/
structure ColumnStore (τ : Type) where
  events : Table String EventColumns
  edges : List (String × String)
  envelopes : Table String String
  eventSkeletons : Table String SkeletonColumns
  others : τ

/-- A pruned event as it is returned: the columns that are read, decoded.
mirrors mdrj/storage.py:544-563 -/
structure PrunedRecord where
  id : String
  cls : String
  source : String
  creator : Option String
  tsLocal : Flt
  vclock : Json
  parents : Json
  selfParentId : Option String
  otherParentId : Option String
  payload : Json
  sig : Option String
  consensusTs : Option Flt
  lamportTs : Option Int
  round : Option Int
  roundReceived : Option Int
  payloadHash : String

namespace ColumnStore
variable {τ : Type}

/-! ## Pruning -/

/-- The `WHERE` clause; a comparison with `NULL` does not hold.
mirrors mdrj/storage.py:517-528 -/
def covered (confirmedRound : Int) (ageThreshold : Flt) (keepClassA : Bool) (row : EventColumns) : Bool :=
  match row.roundReceived with
  | none => false
  | some rr => rr ≤ confirmedRound && Flt.lt row.createdAt ageThreshold && !(keepClassA && row.cls == "A")

/-- mirrors mdrj/storage.py:530-543 -/
def skeletonOf (now : Flt) (row : EventColumns) : SkeletonColumns where
  cls := row.cls
  parentIds := row.parents
  roundReceived := row.roundReceived
  payloadHash := Sha256.hexdigest row.payload
  archivedAt := now

/-- mirrors mdrj/storage.py:544-563 -/
def recordOf (loads : String → Except PyError Json) (id : String) (row : EventColumns) :
    Except PyError PrunedRecord := do
  let vclock ← loads row.vclock
  let parents ← loads row.parents
  let payload ← loads row.payload
  return {
    id
    cls := row.cls
    source := row.source
    creator := row.creator
    tsLocal := row.tsLocal
    vclock, parents
    selfParentId := row.selfParentId
    otherParentId := row.otherParentId
    payload
    sig := row.sig
    consensusTs := row.consensusTs
    lamportTs := row.lamportTs
    round := row.round
    roundReceived := row.roundReceived
    payloadHash := Sha256.hexdigest row.payload }

/-- The statements for one row: the skeleton, the record, the deletions.
mirrors mdrj/storage.py:529-565 -/
def pruneRow (loads : String → Except PyError Json) (now : Flt)
    (acc : ColumnStore τ × List PrunedRecord) (row : String × EventColumns) :
    Except PyError (ColumnStore τ × List PrunedRecord) :=
  if now = .nan then .error .integrityError
  else match recordOf loads row.1 row.2 with
    | .error err => .error err
    | .ok record => .ok (
        { acc.1 with
          eventSkeletons := acc.1.eventSkeletons.put row.1 (skeletonOf now row.2)
          events := acc.1.events.erase row.1
          envelopes := acc.1.envelopes.erase row.1 },
        acc.2 ++ [record])

/-- The rows of the query, `ORDER BY round_received`. -/
def selected (s : ColumnStore τ) (confirmedRound : Int) (ageThreshold : Flt) (keepClassA : Bool) :
    List (String × EventColumns) :=
  (s.events.rows.filter fun row => covered confirmedRound ageThreshold keepClassA row.2).insertionSort
    fun a b => a.2.roundReceived.getD 0 ≤ b.2.roundReceived.getD 0

/-- mirrors mdrj/storage.py:491-569 -/
def pruneUnderCheckpoint (loads : String → Except PyError Json) (s : ColumnStore τ) (confirmedRound : Int)
    (maxAgeSeconds : Flt) (keepClassA : Bool) (now : Flt) :
    ColumnStore τ × Except PyError (List PrunedRecord) :=
  if fitsInt64 confirmedRound then
    match (s.selected confirmedRound (now.sub maxAgeSeconds) keepClassA).foldlM (pruneRow loads now) (s, []) with
    | .error err => (s, .error err)   -- rolled back
    | .ok (s', pruned) => (s', .ok pruned)
  else (s, .error .overflowError)

/-! ## Storing -/

/-- The row of a new event; the columns that the `INSERT` does not name take
their defaults.
mirrors mdrj/storage.py:323-333 -/
def insertedRow (event : Event) (consensusTs : Option Flt) (now : Flt) : EventColumns where
  cls := event.cls.value
  source := event.source
  creator := some event.creator
  tsLocal := event.tsLocal
  vclock := canonicalJson (.ofClock event.vclock)
  parents := canonicalJson (.ofStrings event.parents)
  selfParentId := event.selfParentId
  otherParentId := event.otherParentId
  payload := canonicalJson event.payload
  sig := event.sig
  consensusTs := consensusTs.bind real
  lamportTs := event.lamportTs
  round := event.round
  roundReceived := event.roundReceived
  isWitness := flag event.isWitness
  isFamousWitness := some 0
  fameDecided := some 0
  fameDecisionRound := none
  fameDecisionKind := some FameDecisionKind.pending.value
  fameNeedsCoin := some 0
  fameCoinUsed := some 0
  fameCoinRound := none
  fameVoteRound := none
  fameVoteYes := some 0
  fameVoteNo := some 0
  createdAt := now

/-- `UPDATE … SET x = COALESCE(x, ?)`.
mirrors mdrj/storage.py:317-321 -/
def coalesced (event : Event) (consensusTs : Option Flt) (row : EventColumns) : EventColumns :=
  { row with
    consensusTs := row.consensusTs.or (consensusTs.bind real)
    creator := row.creator.or (some event.creator)
    selfParentId := row.selfParentId.or event.selfParentId
    otherParentId := row.otherParentId.or event.otherParentId }

/-- `merge` gives the text that `_merge_path_meta` writes, from the text that
is stored and the new hops.
mirrors mdrj/storage.py:308-340 -/
def storeEnvelope (merge : Option String → List (Dict String Json) → Except PyError String)
    (s : ColumnStore τ) (envelope : JsonEnvelope) (consensusTs : Option Flt) (now : Flt) :
    ColumnStore τ × Except PyError Bool :=
  let event := envelope.event
  match s.events.get event.id with
  | some row =>
    match merge (s.envelopes.get event.id) envelope.pathMeta with
    | .error err => (s, .error err)
    | .ok text => (
        { s with
          envelopes := s.envelopes.put event.id text
          events := if consensusTs.isNone then s.events
            else s.events.put event.id (coalesced event consensusTs row) },
        .ok false)
  | none =>
    match DAGStorage.insertError event with
    | some err => (s, .error err)
    | none =>
      match merge (s.envelopes.get event.id) envelope.pathMeta with
      | .error err => (s, .error err)   -- rolled back
      | .ok text => (
          { s with
            events := s.events.put event.id (insertedRow event consensusTs now)
            edges := event.parents.foldl (fun edges parent => DAGStorage.addEdge edges (parent, event.id)) s.edges
            envelopes := s.envelopes.put event.id text },
          .ok true)

/-! ## What a pruning moves -/

section Pruning
variable {loads : String → Except PyError Json} {now : Flt}

/-- The rows are gone from `events` and `envelopes` and have their skeletons;
nothing else has changed. -/
structure Moved (now : Flt) (rows : List (String × EventColumns)) (s s' : ColumnStore τ) : Prop where
  events : s'.events.rows = s.events.rows.filter fun p => p.1 ∉ rows.map Prod.fst
  envelopes : s'.envelopes.rows = s.envelopes.rows.filter fun p => p.1 ∉ rows.map Prod.fst
  skeletons : s'.eventSkeletons.rows = rows.foldl (fun d row => Dict.set d row.1 (skeletonOf now row.2))
    s.eventSkeletons.rows
  edges : s'.edges = s.edges
  others : s'.others = s.others

theorem filter_erase {ν : Type} (t : Table String ν) (id : String) (ids : List String) :
    (t.erase id).rows.filter (fun p => p.1 ∉ ids) = t.rows.filter fun p => p.1 ∉ id :: ids := by
  unfold Table.erase
  rw [List.filter_filter]
  refine List.filter_congr fun p _ => ?_
  rw [Bool.and_comm]
  simp

theorem pruneRow_ok {acc acc' : ColumnStore τ × List PrunedRecord} {row : String × EventColumns}
    (h : pruneRow loads now acc row = .ok acc') : ∃ record, recordOf loads row.1 row.2 = .ok record ∧
      acc' = ({ acc.1 with
        eventSkeletons := acc.1.eventSkeletons.put row.1 (skeletonOf now row.2)
        events := acc.1.events.erase row.1
        envelopes := acc.1.envelopes.erase row.1 }, acc.2 ++ [record]) := by
  unfold pruneRow at h
  split at h
  · cases h
  · split at h
    · cases h
    · rename_i record hrecord
      exact ⟨record, hrecord, (Except.ok.inj h).symm⟩

theorem foldlM_pruneRow (rows : List (String × EventColumns)) : ∀ (s : ColumnStore τ)
    (acc : List PrunedRecord) {s' : ColumnStore τ} {pruned : List PrunedRecord},
    rows.foldlM (pruneRow loads now) (s, acc) = .ok (s', pruned) → Moved now rows s s' ∧
      ∃ records, pruned = acc ++ records ∧
        List.Forall₂ (fun row record => recordOf loads row.1 row.2 = .ok record) rows records := by
  induction rows with
  | nil =>
    intro s acc s' pruned h
    obtain ⟨rfl, rfl⟩ := Prod.mk.inj (Except.ok.inj h)
    exact ⟨⟨by simp, by simp, rfl, rfl, rfl⟩, [], (List.append_nil _).symm, .nil⟩
  | cons row rows ih =>
    intro s acc s' pruned h
    rw [List.foldlM_cons] at h
    cases hrow : pruneRow loads now (s, acc) row with
    | error err => rw [hrow] at h; cases h
    | ok acc' =>
      rw [hrow] at h
      obtain ⟨record, hrecord, rfl⟩ := pruneRow_ok hrow
      obtain ⟨hmoved, records, hpruned, hall⟩ := ih _ _ h
      refine ⟨⟨?_, ?_, hmoved.skeletons, hmoved.edges, hmoved.others⟩, record :: records, ?_,
        .cons hrecord hall⟩
      · exact hmoved.events.trans (filter_erase s.events row.1 (rows.map Prod.fst))
      · exact hmoved.envelopes.trans (filter_erase s.envelopes row.1 (rows.map Prod.fst))
      · rw [hpruned, List.append_assoc, List.singleton_append]

/-- A pruning of rows that all decode does not raise. -/
theorem foldlM_pruneRow_ok (hnow : now ≠ .nan) {rows : List (String × EventColumns)}
    (hrows : ∀ row ∈ rows, ∃ record, recordOf loads row.1 row.2 = .ok record) :
    ∀ (acc : ColumnStore τ × List PrunedRecord), ∃ result, rows.foldlM (pruneRow loads now) acc = .ok result := by
  induction rows with
  | nil => intro acc; exact ⟨acc, rfl⟩
  | cons row rows ih =>
    intro acc
    obtain ⟨record, hrecord⟩ := hrows row List.mem_cons_self
    have hrow : ∃ acc', pruneRow loads now acc row = .ok acc' := by
      unfold pruneRow
      rw [if_neg hnow, hrecord]
      exact ⟨_, rfl⟩
    obtain ⟨acc', hrow⟩ := hrow
    rw [List.foldlM_cons, hrow]
    exact ih (fun r hr => hrows r (List.mem_cons_of_mem _ hr)) _

end Pruning

/-! ## The contract -/

/-- What the safety contract lets go. -/
def Covered (confirmedRound : Int) (ageThreshold : Flt) (keepClassA : Bool) (row : EventColumns) : Prop :=
  ∃ rr, row.roundReceived = some rr ∧ rr ≤ confirmedRound ∧ Flt.lt row.createdAt ageThreshold = true ∧
    (keepClassA = true → row.cls ≠ "A")

theorem covered_iff {confirmedRound : Int} {ageThreshold : Flt} {keepClassA : Bool} {row : EventColumns} :
    covered confirmedRound ageThreshold keepClassA row = true ↔
      Covered confirmedRound ageThreshold keepClassA row := by
  unfold covered Covered
  cases row.roundReceived with
  | none => simp
  | some rr => cases keepClassA <;> simp [and_assoc]

/-- What a call that returns has done. -/
structure Contract (loads : String → Except PyError Json) (s : ColumnStore τ) (confirmedRound : Int)
    (maxAgeSeconds : Flt) (keepClassA : Bool) (now : Flt) (s' : ColumnStore τ)
    (returned : List PrunedRecord) : Prop where
  /-- exactly the covered rows are removed, the others are as they were -/
  events : ∀ id row, s'.events.get id = some row ↔
    s.events.get id = some row ∧ ¬ Covered confirmedRound (now.sub maxAgeSeconds) keepClassA row
  skeleton : ∀ id row, s.events.get id = some row →
    Covered confirmedRound (now.sub maxAgeSeconds) keepClassA row →
    s'.eventSkeletons.get id =
      some ⟨row.cls, row.parents, row.roundReceived, Sha256.hexdigest row.payload, now⟩
  otherSkeletons : ∀ id, (∀ row, s.events.get id = some row →
    ¬ Covered confirmedRound (now.sub maxAgeSeconds) keepClassA row) →
    s'.eventSkeletons.get id = s.eventSkeletons.get id
  envelopes : ∀ id, (∀ row, s.events.get id = some row →
    ¬ Covered confirmedRound (now.sub maxAgeSeconds) keepClassA row) →
    s'.envelopes.get id = s.envelopes.get id
  once : (returned.map PrunedRecord.id).Nodup
  returned : ∀ record, record ∈ returned ↔ ∃ row, s.events.get record.id = some row ∧
    Covered confirmedRound (now.sub maxAgeSeconds) keepClassA row ∧
    recordOf loads record.id row = .ok record
  edges : s'.edges = s.edges
  others : s'.others = s.others

section Call
variable {loads : String → Except PyError Json} {s : ColumnStore τ} {confirmedRound : Int}
  {maxAgeSeconds : Flt} {keepClassA : Bool} {now : Flt}

theorem mem_selected {ageThreshold : Flt} {id : String} {row : EventColumns} :
    (id, row) ∈ s.selected confirmedRound ageThreshold keepClassA ↔
      s.events.get id = some row ∧ Covered confirmedRound ageThreshold keepClassA row := by
  unfold selected
  rw [List.mem_insertionSort, List.mem_filter, Table.mem_rows, covered_iff]

theorem nodup_selected (s : ColumnStore τ) (confirmedRound : Int) (ageThreshold : Flt) (keepClassA : Bool) :
    ((s.selected confirmedRound ageThreshold keepClassA).map Prod.fst).Nodup := by
  unfold selected
  refine (((List.perm_insertionSort _ _).map Prod.fst).nodup_iff).2 ?_
  exact s.events.unique.sublist (List.filter_sublist.map Prod.fst)

theorem recordOf_id {id : String} {row : EventColumns} {record : PrunedRecord}
    (h : recordOf loads id row = .ok record) : record.id = id := by
  unfold recordOf at h
  cases hv : loads row.vclock with
  | error err => rw [hv] at h; cases h
  | ok vclock =>
    cases hp : loads row.parents with
    | error err => rw [hv, hp] at h; cases h
    | ok parents =>
      cases hl : loads row.payload with
      | error err => rw [hv, hp, hl] at h; cases h
      | ok payload =>
        rw [hv, hp, hl] at h
        obtain rfl := Except.ok.inj h
        rfl

theorem records_ids {rows : List (String × EventColumns)} {records : List PrunedRecord}
    (h : List.Forall₂ (fun row record => recordOf loads row.1 row.2 = .ok record) rows records) :
    records.map PrunedRecord.id = rows.map Prod.fst := by
  induction h with
  | nil => rfl
  | cons hrecord _ ih => rw [List.map_cons, List.map_cons, recordOf_id hrecord, ih]

theorem mem_records {rows : List (String × EventColumns)} {records : List PrunedRecord}
    (h : List.Forall₂ (fun row record => recordOf loads row.1 row.2 = .ok record) rows records)
    {record : PrunedRecord} : record ∈ records ↔ ∃ row ∈ rows, recordOf loads row.1 row.2 = .ok record := by
  induction h with
  | nil => simp
  | @cons row first rows records hrecord _ ih =>
    rw [List.mem_cons, ih, List.exists_mem_cons_iff, hrecord, Except.ok.injEq]
    exact or_congr_left eq_comm

/-- A table from which these keys are gone. -/
theorem get_of_filter {ν : Type} {t t' : Table String ν} {ids : List String}
    (h : t'.rows = t.rows.filter fun p => p.1 ∉ ids) (id : String) (v : ν) :
    t'.get id = some v ↔ t.get id = some v ∧ id ∉ ids := by
  unfold Table.get
  rw [h, Dict.get_filter t.unique]
  simp

theorem contract_of_moved {rows : List (String × EventColumns)}
    (hrows : rows = s.selected confirmedRound (now.sub maxAgeSeconds) keepClassA) {s' : ColumnStore τ}
    (hmoved : Moved now rows s s') {records : List PrunedRecord}
    (hall : List.Forall₂ (fun row record => recordOf loads row.1 row.2 = .ok record) rows records) :
    Contract loads s confirmedRound maxAgeSeconds keepClassA now s' records := by
  have hnodup : (rows.map Prod.fst).Nodup := by rw [hrows]; exact nodup_selected _ _ _ _
  have hmem : ∀ {id row}, (id, row) ∈ rows ↔ s.events.get id = some row ∧
      Covered confirmedRound (now.sub maxAgeSeconds) keepClassA row := by
    intro id row
    rw [hrows, mem_selected]
  have hids : ∀ id, id ∈ rows.map Prod.fst ↔ ∃ row, s.events.get id = some row ∧
      Covered confirmedRound (now.sub maxAgeSeconds) keepClassA row := by
    intro id
    rw [List.mem_map]
    constructor
    · intro h
      obtain ⟨⟨_, row⟩, hrow, rfl⟩ := h
      exact ⟨row, hmem.1 hrow⟩
    · intro h
      obtain ⟨row, hrow⟩ := h
      exact ⟨(id, row), hmem.2 hrow, rfl⟩
  have hkept : ∀ {id}, (∀ row, s.events.get id = some row →
      ¬ Covered confirmedRound (now.sub maxAgeSeconds) keepClassA row) → id ∉ rows.map Prod.fst := by
    intro id hno hin
    obtain ⟨row, hget, hcov⟩ := (hids id).1 hin
    exact hno row hget hcov
  refine ⟨fun id row => ?_, fun id row hget hcov => ?_, fun id hno => ?_, fun id hno => ?_, ?_,
    fun record => ?_, hmoved.edges, hmoved.others⟩
  · rw [get_of_filter hmoved.events, hids]
    refine and_congr_right fun hget => not_congr ⟨fun h => ?_, fun hcov => ⟨row, hget, hcov⟩⟩
    obtain ⟨row', hget', hcov⟩ := h
    obtain rfl := Option.some.inj (hget.symm.trans hget')
    exact hcov
  · unfold Table.get
    rw [hmoved.skeletons]
    exact Dict.get_foldl_set_of_mem Prod.fst (fun row => skeletonOf now row.2) hnodup (hmem.2 ⟨hget, hcov⟩)
  · unfold Table.get
    rw [hmoved.skeletons]
    exact Dict.get_foldl_set_of_notMem Prod.fst (fun row => skeletonOf now row.2) (hkept hno)
  · refine Option.ext fun text => ?_
    rw [get_of_filter hmoved.envelopes]
    exact and_iff_left (hkept hno)
  · rw [records_ids hall]
    exact hnodup
  · rw [mem_records hall]
    constructor
    · intro h
      obtain ⟨⟨id, row⟩, hrow, hrecord⟩ := h
      obtain rfl := recordOf_id hrecord
      exact ⟨row, (hmem.1 hrow).1, (hmem.1 hrow).2, hrecord⟩
    · intro h
      obtain ⟨row, hget, hcov, hrecord⟩ := h
      exact ⟨(record.id, row), hmem.2 ⟨hget, hcov⟩, hrecord⟩

/-- A call moves the selected rows, or raises and changes nothing. -/
theorem prune_moves (loads : String → Except PyError Json) (s : ColumnStore τ) (confirmedRound : Int)
    (maxAgeSeconds : Flt) (keepClassA : Bool) (now : Flt) :
    (∃ s' returned, s.pruneUnderCheckpoint loads confirmedRound maxAgeSeconds keepClassA now =
        (s', .ok returned) ∧
      Moved now (s.selected confirmedRound (now.sub maxAgeSeconds) keepClassA) s s' ∧
      List.Forall₂ (fun row record => recordOf loads row.1 row.2 = .ok record)
        (s.selected confirmedRound (now.sub maxAgeSeconds) keepClassA) returned) ∨
    ∃ err, s.pruneUnderCheckpoint loads confirmedRound maxAgeSeconds keepClassA now = (s, .error err) := by
  unfold pruneUnderCheckpoint
  split
  · split
    · exact .inr ⟨_, rfl⟩
    · rename_i s' pruned hfold
      obtain ⟨hmoved, records, hpruned, hall⟩ := foldlM_pruneRow _ s [] hfold
      rw [List.nil_append] at hpruned
      subst hpruned
      exact .inl ⟨s', pruned, rfl, hmoved, hall⟩
  · exact .inr ⟨_, rfl⟩

/-- A call either keeps the contract, or raises and changes nothing. -/
theorem prune_spec (loads : String → Except PyError Json) (s : ColumnStore τ) (confirmedRound : Int)
    (maxAgeSeconds : Flt) (keepClassA : Bool) (now : Flt) :
    (∃ s' returned, s.pruneUnderCheckpoint loads confirmedRound maxAgeSeconds keepClassA now =
      (s', .ok returned) ∧ Contract loads s confirmedRound maxAgeSeconds keepClassA now s' returned) ∨
    ∃ err, s.pruneUnderCheckpoint loads confirmedRound maxAgeSeconds keepClassA now = (s, .error err) := by
  refine (prune_moves loads s confirmedRound maxAgeSeconds keepClassA now).imp_left fun h => ?_
  obtain ⟨s', returned, heq, hmoved, hall⟩ := h
  exact ⟨s', returned, heq, contract_of_moved rfl hmoved hall⟩

/-- With a round that fits and rows that decode, it does not raise. -/
theorem prune_returns (hfits : fitsInt64 confirmedRound = true)
    (hdecode : ∀ id row, s.events.get id = some row →
      Covered confirmedRound (now.sub maxAgeSeconds) keepClassA row →
      ∃ record, recordOf loads id row = .ok record) :
    ∃ s' returned, s.pruneUnderCheckpoint loads confirmedRound maxAgeSeconds keepClassA now =
      (s', .ok returned) := by
  have hresult : ∃ result, (s.selected confirmedRound (now.sub maxAgeSeconds) keepClassA).foldlM
      (pruneRow loads now) (s, []) = .ok result := by
    by_cases hnow : now = .nan
    · -- nothing is older than NaN
      have hempty : s.selected confirmedRound (now.sub maxAgeSeconds) keepClassA = [] := by
        refine List.eq_nil_iff_forall_not_mem.2 fun row hrow => ?_
        obtain ⟨-, rr, -, -, hlt, -⟩ := mem_selected.1 hrow
        rw [hnow] at hlt
        cases h : row.2.createdAt <;> rw [h] at hlt <;> cases hlt
      rw [hempty]
      exact ⟨_, rfl⟩
    · refine foldlM_pruneRow_ok hnow (fun row hrow => ?_) _
      obtain ⟨hget, hcov⟩ := mem_selected.1 hrow
      exact hdecode row.1 row.2 hget hcov
  obtain ⟨⟨s', returned⟩, hresult⟩ := hresult
  refine ⟨s', returned, ?_⟩
  unfold pruneUnderCheckpoint
  rw [if_pos hfits, hresult]

end Call

/-! ## Runs -/

/-- The calls that write and prune the events. -/
inductive StoreCall where
  | store (envelope : JsonEnvelope) (consensusTs : Option Flt) (now : Flt)
  | prune (confirmedRound : Int) (maxAgeSeconds : Flt) (keepClassA : Bool) (now : Flt)

def call (loads : String → Except PyError Json)
    (merge : Option String → List (Dict String Json) → Except PyError String) (s : ColumnStore τ) :
    StoreCall → ColumnStore τ
  | .store envelope consensusTs now => (s.storeEnvelope merge envelope consensusTs now).1
  | .prune confirmedRound maxAgeSeconds keepClassA now =>
    (s.pruneUnderCheckpoint loads confirmedRound maxAgeSeconds keepClassA now).1

/-- The id is in `events` or in `event_skeletons`. -/
def Known (s : ColumnStore τ) (id : String) : Prop :=
  (s.events.get id).isSome = true ∨ (s.eventSkeletons.get id).isSome = true

theorem store_known (merge : Option String → List (Dict String Json) → Except PyError String)
    (s : ColumnStore τ) (envelope : JsonEnvelope) (consensusTs : Option Flt) (now : Flt) {id : String}
    (h : s.Known id) : (s.storeEnvelope merge envelope consensusTs now).1.Known id := by
  -- a row that is written is there, and the others stay
  have hput : ∀ row, (s.events.get id).isSome = true →
      ((s.events.put envelope.event.id row).get id).isSome = true := by
    intro row hrow
    by_cases he : envelope.event.id = id
    · rw [he, Table.get_put_self]; rfl
    · rw [Table.get_put_ne _ _ he]; exact hrow
  unfold storeEnvelope
  dsimp only
  split
  · split
    · exact h
    · refine h.imp_left fun hrow => ?_
      dsimp only
      split
      · exact hrow
      · exact hput _ hrow
  · split
    · exact h
    · split
      · exact h
      · exact h.imp_left (hput _)

theorem prune_known (loads : String → Except PyError Json) (s : ColumnStore τ) (confirmedRound : Int)
    (maxAgeSeconds : Flt) (keepClassA : Bool) (now : Flt) {id : String} (h : s.Known id) :
    (s.pruneUnderCheckpoint loads confirmedRound maxAgeSeconds keepClassA now).1.Known id := by
  rcases prune_spec loads s confirmedRound maxAgeSeconds keepClassA now with
    ⟨s', returned, heq, hcontract⟩ | ⟨err, heq⟩
  · rw [heq]
    by_cases hcov : ∃ row, s.events.get id = some row ∧
        Covered confirmedRound (now.sub maxAgeSeconds) keepClassA row
    · obtain ⟨row, hget, hcov⟩ := hcov
      exact .inr (by rw [hcontract.skeleton id row hget hcov]; rfl)
    · have hno : ∀ row, s.events.get id = some row →
          ¬ Covered confirmedRound (now.sub maxAgeSeconds) keepClassA row :=
        fun row hget hc => hcov ⟨row, hget, hc⟩
      refine h.imp (fun hrow => ?_) fun hskel => ?_
      · obtain ⟨row, hget⟩ := Option.isSome_iff_exists.1 hrow
        exact Option.isSome_iff_exists.2 ⟨row, (hcontract.events id row).2 ⟨hget, hno row hget⟩⟩
      · rw [hcontract.otherSkeletons id hno]; exact hskel
  · rw [heq]; exact h

/-- **Pruning keeps its contract.** For every store and all arguments, a call
removes exactly the covered rows, leaves a skeleton for each and returns each
once, and changes nothing else; or it raises, and changes nothing at all. It
raises only for a round beyond 64 bits or a covered row that does not decode.
Over any calls that store and prune, no id leaves the events and skeletons. -/
theorem prune_contract (loads : String → Except PyError Json)
    (merge : Option String → List (Dict String Json) → Except PyError String) (s : ColumnStore τ) :
    (∀ confirmedRound maxAgeSeconds keepClassA now,
      (∃ s' returned, s.pruneUnderCheckpoint loads confirmedRound maxAgeSeconds keepClassA now =
        (s', .ok returned) ∧ Contract loads s confirmedRound maxAgeSeconds keepClassA now s' returned) ∨
      ∃ err, s.pruneUnderCheckpoint loads confirmedRound maxAgeSeconds keepClassA now = (s, .error err)) ∧
    (∀ confirmedRound maxAgeSeconds keepClassA now, fitsInt64 confirmedRound = true →
      (∀ id row, s.events.get id = some row →
        Covered confirmedRound (now.sub maxAgeSeconds) keepClassA row →
        ∃ record, recordOf loads id row = .ok record) →
      ∃ s' returned, s.pruneUnderCheckpoint loads confirmedRound maxAgeSeconds keepClassA now =
        (s', .ok returned)) ∧
    ∀ (calls : List StoreCall) (id : String), s.Known id → (run (call loads merge) s calls).Known id := by
  refine ⟨prune_spec loads s, fun _ _ _ _ => prune_returns, fun calls id h => ?_⟩
  refine run_always (I := fun s : ColumnStore τ => s.Known id) (fun s c h => ?_) calls h
  cases c with
  | store envelope consensusTs now => exact store_known merge s envelope consensusTs now h
  | prune confirmedRound maxAgeSeconds keepClassA now =>
    exact prune_known loads s confirmedRound maxAgeSeconds keepClassA now h

/-! ## The storage model -/

/-- The columns of a row of the model. -/
def ofRow (row : EventRow) : EventColumns where
  cls := row.event.cls.value
  source := row.event.source
  creator := some row.event.creator
  tsLocal := row.event.tsLocal
  vclock := canonicalJson (.ofClock row.event.vclock)
  parents := canonicalJson (.ofStrings row.event.parents)
  selfParentId := row.event.selfParentId
  otherParentId := row.event.otherParentId
  payload := canonicalJson row.event.payload
  sig := row.event.sig
  consensusTs := row.event.consensusTs
  lamportTs := row.event.lamportTs
  round := row.event.round
  roundReceived := row.event.roundReceived
  isWitness := flag row.event.isWitness
  isFamousWitness := flag row.event.isFamousWitness
  fameDecided := flag row.event.fameDecided
  fameDecisionRound := row.event.fameDecisionRound
  fameDecisionKind := some row.event.fameDecisionKind
  fameNeedsCoin := flag row.event.fameNeedsCoin
  fameCoinUsed := flag row.event.fameCoinUsed
  fameCoinRound := row.event.fameCoinRound
  fameVoteRound := row.event.fameVoteRound
  fameVoteYes := some row.event.fameVoteYes
  fameVoteNo := some row.event.fameVoteNo
  createdAt := row.createdAt

def ofSkeleton (row : SkeletonRow) : SkeletonColumns :=
  ⟨row.cls.value, canonicalJson (.ofStrings row.parentIds), row.roundReceived, row.payloadHash, row.archivedAt⟩

/-- The tables hold what the model says, as texts. -/
structure Represents (s : DAGStorage) (c : ColumnStore τ) : Prop where
  events : c.events.rows = s.events.map fun row => (row.event.id, ofRow row)
  envelopes : c.envelopes.rows = s.envelopes.map fun p =>
    (p.1, canonicalJson (.arr (p.2.map fun hop => .obj hop.toObject)))
  skeletons : c.eventSkeletons.rows = s.eventSkeletons.map fun p => (p.1, ofSkeleton p.2)
  edges : c.edges = s.edges

section Refinement
variable {s : DAGStorage} {c : ColumnStore τ} {confirmedRound : Int} {maxAgeSeconds : Flt}
  {keepClassA : Bool} {now : Flt}

theorem covered_ofRow (ageThreshold : Flt) (row : EventRow) :
    covered confirmedRound ageThreshold keepClassA (ofRow row) =
      DAGStorage.prunable confirmedRound ageThreshold keepClassA row := by
  unfold covered DAGStorage.prunable
  have hcls : (row.event.cls.value == "A") = (row.event.cls == .A) := by
    cases row.event.cls <;> decide
  cases hr : row.event.roundReceived with
  | none => simp [ofRow, hr]
  | some rr => simp [ofRow, hr, hcls]

theorem selected_ofRow (h : Represents s c) : c.selected confirmedRound (now.sub maxAgeSeconds) keepClassA =
    (s.pruneUnderCheckpoint confirmedRound maxAgeSeconds keepClassA now).2.map
      fun row => (row.event.id, ofRow row) := by
  have hfilter : ((fun row : String × EventColumns => covered confirmedRound (now.sub maxAgeSeconds) keepClassA row.2) ∘
      fun row : EventRow => (row.event.id, ofRow row)) =
      DAGStorage.prunable confirmedRound (now.sub maxAgeSeconds) keepClassA :=
    funext fun row => covered_ofRow _ row
  unfold selected DAGStorage.pruneUnderCheckpoint
  dsimp only
  rw [h.events, List.filter_map, hfilter]
  exact (List.map_insertionSort
    (fun a b : EventRow => a.event.roundReceived.getD 0 ≤ b.event.roundReceived.getD 0)
    (fun a b : String × EventColumns => a.2.roundReceived.getD 0 ≤ b.2.roundReceived.getD 0)
    (fun row => (row.event.id, ofRow row)) _ fun _ _ _ _ => Iff.rfl).symm

/-- The ids of the rows that are moved. -/
theorem ids_selected (h : Represents s c) :
    (c.selected confirmedRound (now.sub maxAgeSeconds) keepClassA).map Prod.fst =
      (s.pruneUnderCheckpoint confirmedRound maxAgeSeconds keepClassA now).2.map fun row => row.event.id := by
  rw [selected_ofRow h, List.map_map]
  rfl

theorem skeletons_ofRow (rows : List EventRow) : ∀ skeletons : Dict String SkeletonRow,
    (rows.map fun row => (row.event.id, ofRow row)).foldl
        (fun d row => Dict.set d row.1 (skeletonOf now row.2)) (skeletons.map fun p => (p.1, ofSkeleton p.2)) =
      (rows.foldl (fun skeletons row => Dict.set skeletons row.event.id (DAGStorage.skeletonOf now row))
        skeletons).map fun p => (p.1, ofSkeleton p.2) := by
  induction rows with
  | nil => intro skeletons; rfl
  | cons row rows ih =>
    intro skeletons
    rw [List.map_cons, List.foldl_cons, List.foldl_cons, ← ih, Dict.map_set]
    rfl

/-- Where the ids are a key, a row's id is selected with the row only. -/
theorem mem_ids_selected (h : Represents s c) {row : EventRow} (hrow : row ∈ s.events) :
    row.event.id ∈ (c.selected confirmedRound (now.sub maxAgeSeconds) keepClassA).map Prod.fst ↔
      DAGStorage.prunable confirmedRound (now.sub maxAgeSeconds) keepClassA row = true := by
  have hget : c.events.get row.event.id = some (ofRow row) := by
    rw [← Table.mem_rows, h.events]
    exact List.mem_map.2 ⟨row, hrow, rfl⟩
  rw [← covered_ofRow, covered_iff, List.mem_map]
  constructor
  · intro hin
    obtain ⟨⟨id, columns⟩, hsel, hid⟩ := hin
    obtain ⟨hget', hcov⟩ := mem_selected.1 hsel
    obtain rfl : id = row.event.id := hid
    obtain rfl := Option.some.inj (hget'.symm.trans hget)
    exact hcov
  · intro hcov
    exact ⟨(row.event.id, ofRow row), mem_selected.2 ⟨hget, hcov⟩, rfl⟩

theorem represents_of_moved (h : Represents s c) {c' : ColumnStore τ}
    (hmoved : Moved now (c.selected confirmedRound (now.sub maxAgeSeconds) keepClassA) c c') :
    Represents (s.pruneUnderCheckpoint confirmedRound maxAgeSeconds keepClassA now).1 c' := by
  refine ⟨?_, ?_, ?_, hmoved.edges.trans h.edges⟩
  · rw [hmoved.events, h.events, List.filter_map]
    unfold DAGStorage.pruneUnderCheckpoint
    dsimp only
    refine congrArg _ (List.filter_congr fun row hrow => ?_)
    rw [Bool.eq_iff_iff, Function.comp_apply, decide_eq_true_iff, mem_ids_selected h hrow]
    simp
  · rw [hmoved.envelopes, h.envelopes, List.filter_map, ids_selected h]
    refine congrArg _ (List.filter_congr fun p _ => ?_)
    exact decide_not
  · rw [hmoved.skeletons, h.skeletons, selected_ofRow h, skeletons_ofRow]
    rfl

/-- **The tables refine the storage model.** Where the texts are those the
node wrote, pruning the tables is pruning the model, and the records that are
returned are of the rows that the model returns. -/
theorem prune_refines {loads : String → Except PyError Json} (h : Represents s c)
    (hloads : ∀ value : Json, ∃ decoded, loads (canonicalJson value) = .ok decoded)
    (hfits : fitsInt64 confirmedRound = true) :
    ∃ c' returned, c.pruneUnderCheckpoint loads confirmedRound maxAgeSeconds keepClassA now =
        (c', .ok returned) ∧
      Represents (s.pruneUnderCheckpoint confirmedRound maxAgeSeconds keepClassA now).1 c' ∧
      returned.map PrunedRecord.id =
        (s.pruneUnderCheckpoint confirmedRound maxAgeSeconds keepClassA now).2.map fun row => row.event.id := by
  have hdecode : ∀ id columns, c.events.get id = some columns →
      Covered confirmedRound (now.sub maxAgeSeconds) keepClassA columns →
      ∃ record, recordOf loads id columns = .ok record := by
    intro id columns hget _
    rw [← Table.mem_rows, h.events] at hget
    obtain ⟨row, -, heq⟩ := List.mem_map.1 hget
    obtain ⟨-, rfl⟩ := Prod.mk.inj heq
    obtain ⟨vclock, hv⟩ := hloads (.ofClock row.event.vclock)
    obtain ⟨parents, hp⟩ := hloads (.ofStrings row.event.parents)
    obtain ⟨payload, hl⟩ := hloads row.event.payload
    unfold recordOf ofRow
    dsimp only
    rw [hv, hp, hl]
    exact ⟨_, rfl⟩
  obtain ⟨c', returned, heq⟩ := prune_returns (s := c) hfits hdecode
  rcases prune_moves loads c confirmedRound maxAgeSeconds keepClassA now with
    ⟨c'', returned', heq', hmoved, hall⟩ | ⟨err, heq'⟩
  · refine ⟨c'', returned', heq', represents_of_moved h hmoved, ?_⟩
    rw [records_ids hall, ids_selected h]
  · rw [heq'] at heq
    cases heq

end Refinement

end ColumnStore
end Mdrj.L3
