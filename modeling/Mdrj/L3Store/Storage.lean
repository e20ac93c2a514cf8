import Mdrj.Core.Toposort
import Mdrj.L2Consensus.Engine

/-!
# The storage tables

`DAGStorage` keeps the graph in SQLite. A table is a list of rows in
insertion order. `ORDER BY created_at` reads the index on that column, which
has equal times in insertion order; with `DESC` it is read backwards. The
order of a query without `ORDER BY` is not specified (SQLite may answer it
from an index); here it is the order of insertion. Two features of SQLite show
in the model: a `REAL` column keeps NaN as `NULL`, and an integer outside 64
bits cannot be bound. The clock readings (`created_at`, `now`) are arguments.

Left out: the tables of peers, incidents, metrics and users, which nothing
here reads.
-/
namespace Mdrj.L3
open Mdrj.Core Mdrj.L1 Mdrj.L2

/-- What a call may raise. -/
inductive PyError where
  | integrityError   -- `NOT NULL` constraint
  | overflowError    -- integer too large for SQLite, or for a float
  | typeError
  | unicodeEncodeError   -- a lone surrogate cannot be bound
  | valueError (message : String)
  | keyError (message : String)
  | osError (message : String)
  deriving DecidableEq, Repr

def cycleError : PyError := .valueError "cycle detected in DAG"

/-- A `REAL` value as the column keeps it. -/
def real (x : Flt) : Option Flt := if x = .nan then none else some x

def fitsInt64 (n : Int) : Bool := -(2 ^ 63) ≤ n && n < 2 ^ 63

/-- mirrors mdrj/storage.py:44-72 -/
structure EventRow where
  event : Event
  createdAt : Flt

/-- mirrors mdrj/storage.py:117-124 -/
structure SkeletonRow where
  id : String
  cls : EventClass
  parentIds : List String
  roundReceived : Option Int
  payloadHash : String
  archivedAt : Flt

inductive CheckpointStatus where
  | pending | confirmed
  deriving DecidableEq, Repr

/-- A row of `checkpoints`, which is keyed by the round.
mirrors mdrj/storage.py:108-116 -/
structure CheckpointRow where
  merkleRoot : String
  membersSnapshotHash : String
  signatures : Dict String String
  status : CheckpointStatus
  confirmedAt : Option Flt
  createdAt : Flt
  deriving DecidableEq

/-- An envelope from a peer. Two values that its JSON may carry fit no field of
an `Envelope`, and SQLite does not bind them: a `creator`, `self_parent_id` or
`other_parent_id` with a lone surrogate (`loneLink`), and a `consensus_ts`
that is an integer outside 64 bits (`hugeTimestamp`). What `envelope` has in
these fields then stands for nothing. -/
structure Incoming where
  envelope : Envelope
  loneLink : Bool := false
  hugeTimestamp : Bool := false

structure DAGStorage where
  events : List EventRow := []
  envelopes : Dict String (List Hop) := []
  edges : List (String × String) := []
  checkpoints : Dict Int CheckpointRow := []
  eventSkeletons : Dict String SkeletonRow := []

namespace DAGStorage

def ids (s : DAGStorage) : List String := s.events.map fun row => row.event.id

/-! ## Writing envelopes -/

/-- Hops already listed, by node and timestamp, are not listed again.
mirrors mdrj/storage.py:286-306 -/
def mergeHops (existing new : List Hop) : List Hop :=
  (existing ++ new).foldl (fun merged hop => if hop ∈ merged then merged else merged ++ [hop]) []

def mergePathMeta (s : DAGStorage) (eventId : String) (newPath : List Hop) : DAGStorage :=
  let merged := mergeHops ((Dict.get s.envelopes eventId).getD []) newPath
  { s with envelopes := Dict.set s.envelopes eventId merged }

/-- The columns an `INSERT` writes; the fame columns take their defaults.
mirrors mdrj/storage.py:323-333 -/
def insertColumns (event : Event) (consensusTs : Option Flt) : Event :=
  { event with
    consensusTs := consensusTs.bind real, isFamousWitness := false, fameDecided := false,
    fameDecisionRound := none, fameDecisionKind := FameDecisionKind.pending.value,
    fameNeedsCoin := false, fameCoinUsed := false, fameCoinRound := none, fameVoteRound := none,
    fameVoteYes := 0, fameVoteNo := 0 }

/-- What SQLite refuses to insert. -/
def insertError (event : Event) : Option PyError :=
  if ([event.lamportTs, event.round, event.roundReceived].filterMap id).any (!fitsInt64 ·) then
    some .overflowError
  else if event.tsLocal = .nan then some .integrityError
  else none

/-- `INSERT OR IGNORE INTO edges`. -/
def addEdge (edges : List (String × String)) (edge : String × String) : List (String × String) :=
  if edge ∈ edges then edges else edges ++ [edge]

/-- The first writer of an id wins; a known id only gains hops and, with a
timestamp at hand, missing columns.
mirrors mdrj/storage.py:308-340 -/
def storeEnvelope (s : DAGStorage) (envelope : Envelope) (consensusTs : Option Flt) (now : Flt) :
    Except PyError (DAGStorage × Bool) :=
  let event := envelope.event
  if event.id ∈ s.ids then
    let s := s.mergePathMeta event.id envelope.pathMeta
    let s := if consensusTs.isNone then s else
      { s with events := s.events.map fun row =>
          if row.event.id = event.id then
            { row with event := { row.event with
              consensusTs := row.event.consensusTs.or (consensusTs.bind real)
              selfParentId := row.event.selfParentId.or event.selfParentId
              otherParentId := row.event.otherParentId.or event.otherParentId } }
          else row }
    .ok (s, false)
  else
    match insertError event with
    | some err => .error err
    | none =>
      let row : EventRow := ⟨insertColumns event consensusTs, now⟩
      let edges := event.parents.foldl (fun edges parent => addEdge edges (parent, event.id)) s.edges
      let s := { s with events := s.events ++ [row], edges := edges }
      .ok (s.mergePathMeta event.id envelope.pathMeta, true)

/-- What SQLite refuses to bind. The `INSERT` of a new event binds the links
before the timestamp; the `UPDATE` of a known one binds the timestamp first,
and is made only where there is one. -/
def bindError (s : DAGStorage) (incoming : Incoming) (consensusTs : Option Flt) : Option PyError :=
  if incoming.envelope.event.id ∈ s.ids then
    if incoming.hugeTimestamp then some .overflowError
    else if incoming.loneLink && consensusTs.isSome then some .unicodeEncodeError
    else none
  else if incoming.loneLink then some .unicodeEncodeError
  else if incoming.hugeTimestamp then some .overflowError
  else none

/-- `store_envelope` of what a peer may send; an error rolls the transaction
back. -/
def storeIncoming (s : DAGStorage) (incoming : Incoming) (consensusTs : Option Flt) (now : Flt) :
    Except PyError (DAGStorage × Bool) :=
  match s.bindError incoming consensusTs with
  | some err => .error err
  | none => s.storeEnvelope incoming.envelope consensusTs now

/-! ## Consensus columns -/

/-- mirrors mdrj/storage.py:345-387 -/
def applyState (state : ConsensusState) (event : Event) : Event :=
  { event with
    consensusTs := state.consensusTs.bind real
    round := some state.round
    roundReceived := state.roundReceived.map Int.ofNat
    isWitness := state.isWitness
    isFamousWitness := state.isFamousWitness
    fameDecided := state.fameDecided
    fameDecisionRound := state.fameDecisionRound.map Int.ofNat
    fameDecisionKind := state.fameDecisionKind.value
    fameNeedsCoin := state.fameNeedsCoin
    fameCoinUsed := state.fameCoinUsed
    fameCoinRound := state.fameCoinRound.map Int.ofNat
    fameVoteRound := state.fameVoteRound.map Int.ofNat
    fameVoteYes := state.fameVoteYes
    fameVoteNo := state.fameVoteNo
    selfParentId := event.selfParentId.or state.selfParentId
    otherParentId := event.otherParentId.or state.otherParentId }

/-- mirrors mdrj/storage.py:342-387 -/
def replaceConsensusState (s : DAGStorage) (states : List ConsensusState) : DAGStorage :=
  states.foldl (fun s state =>
    { s with events := s.events.map fun row =>
        if row.event.id = state.eventId then { row with event := applyState state row.event }
        else row }) s

/-! ## Reading events -/

/-- mirrors mdrj/models.py:152-199 -/
def loadEvent (row : EventRow) : Event :=
  let event := row.event
  let source := if event.source = "" then "unknown" else event.source
  { event with
    source := source
    creator := if event.creator = "" then source else event.creator
    selfParentId := event.selfParentId.or event.parents[0]?
    otherParentId := event.otherParentId.or event.parents[1]?
    fameDecisionKind :=
      if event.fameDecisionKind = "" then FameDecisionKind.pending.value else event.fameDecisionKind }

/-- mirrors mdrj/storage.py:440-443 -/
def allEvents (s : DAGStorage) : List Event :=
  (s.events.insertionSort fun a b => Flt.lt b.createdAt a.createdAt = false).map loadEvent

/-- mirrors mdrj/storage.py:389-395 -/
def getEvent (s : DAGStorage) (eventId : String) : Option Event :=
  (s.events.find? fun row => row.event.id = eventId).map loadEvent

/-- Newest first, as the index on `created_at` is read backwards: of equal
times the last inserted comes first. -/
def recentRows (s : DAGStorage) : List EventRow :=
  s.events.reverse.insertionSort fun a b => Flt.lt a.createdAt b.createdAt = false

/-- mirrors mdrj/storage.py:397-405 -/
def latestEventBySource (s : DAGStorage) (source : String) : Option Event :=
  (s.recentRows.find? fun row => row.event.source = source).map loadEvent

/-- mirrors mdrj/storage.py:407-413 -/
def listRecentEvents (s : DAGStorage) (limit : Nat := 256) : List Event :=
  (s.recentRows.take limit).map loadEvent

/-- mirrors mdrj/storage.py:415-426 -/
def getEnvelope (s : DAGStorage) (eventId : String) : Option Envelope :=
  (s.getEvent eventId).map fun event => ⟨event, (Dict.get s.envelopes eventId).getD []⟩

/-- mirrors mdrj/storage.py:428-438 without `newer_than` -/
def listEvents (s : DAGStorage) (limit : Nat) : List Event := s.allEvents.take limit

/-- mirrors mdrj/storage.py:468-489 -/
def toposort (s : DAGStorage) : Except PyError (List String) :=
  match Kahn.toposort s.ids s.edges with
  | some order => .ok order
  | none => .error cycleError

/-! ## Pruning -/

/-- mirrors mdrj/storage.py:526-536 -/
def prunable (confirmedRound : Int) (ageThreshold : Flt) (keepClassA : Bool) (row : EventRow) :
    Bool :=
  match row.event.roundReceived with
  | none => false
  | some rr => rr ≤ confirmedRound && Flt.lt row.createdAt ageThreshold &&
      !(keepClassA && row.event.cls == .A)

/-- mirrors mdrj/storage.py:537-550 -/
def skeletonOf (now : Flt) (row : EventRow) : SkeletonRow where
  id := row.event.id
  cls := row.event.cls
  parentIds := row.event.parents
  roundReceived := row.event.roundReceived
  payloadHash := Sha256.hexdigest (canonicalJson row.event.payload)
  archivedAt := now

/-- Covered events move to `event_skeletons`; the edges stay.
mirrors mdrj/storage.py:491-569 -/
def pruneUnderCheckpoint (s : DAGStorage) (confirmedRound : Int) (maxAgeSeconds : Flt)
    (keepClassA : Bool) (now : Flt) : DAGStorage × List EventRow :=
  let ageThreshold := now.sub maxAgeSeconds
  let pruned := (s.events.filter (prunable confirmedRound ageThreshold keepClassA)).insertionSort
    fun a b => a.event.roundReceived.getD 0 ≤ b.event.roundReceived.getD 0
  ({ s with
      events := s.events.filter fun row => !prunable confirmedRound ageThreshold keepClassA row
      envelopes := s.envelopes.filter fun p => !decide (p.1 ∈ pruned.map fun row => row.event.id)
      eventSkeletons := pruned.foldl (fun skeletons row =>
        Dict.set skeletons row.event.id (skeletonOf now row)) s.eventSkeletons },
    pruned)

/-- mirrors mdrj/storage.py:223-236 -/
def clearEvents (_ : DAGStorage) : DAGStorage :=
  { events := [], envelopes := [], edges := [], checkpoints := [], eventSkeletons := [] }

/-! ## Checkpoints -/

/-- `ON CONFLICT` keeps the creation time.
mirrors mdrj/storage.py:690-719 -/
def upsertCheckpoint (s : DAGStorage) (roundReceived : Int) (row : CheckpointRow) : DAGStorage :=
  let createdAt := match Dict.get s.checkpoints roundReceived with
    | some old => old.createdAt
    | none => row.createdAt
  { s with checkpoints := Dict.set s.checkpoints roundReceived { row with createdAt := createdAt } }

theorem upsertCheckpoint_get (s : DAGStorage) (roundReceived : Int) (row : CheckpointRow) :
    ∃ t, Dict.get (s.upsertCheckpoint roundReceived row).checkpoints roundReceived =
      some { row with createdAt := t } :=
  ⟨_, Dict.get_set_self _ _ _⟩

/-- mirrors mdrj/storage.py:721-730 -/
def getCheckpoint (s : DAGStorage) (roundReceived : Int) : Except PyError (Option CheckpointRow) :=
  if fitsInt64 roundReceived then .ok (Dict.get s.checkpoints roundReceived) else .error .overflowError

/-- The newest confirmed round and its row.
mirrors mdrj/storage.py:748-756 -/
def latestConfirmedCheckpoint (s : DAGStorage) : Option (Int × CheckpointRow) :=
  ((s.checkpoints.filter fun p => p.2.status = .confirmed).insertionSort
    fun a b => b.1 ≤ a.1).head?

end DAGStorage
end Mdrj.L3
