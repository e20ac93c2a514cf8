import Mathlib.Data.Finset.Card
import Mathlib.Data.Finset.Dedup
import Mdrj.Core.ListSort
import Mdrj.Core.Memo
import Mdrj.L1Encoding.Event

/-!
# The consensus engine

`ConsensusEngine.recompute` assigns every stored event its round, witness
flag, fame record, received round and consensus timestamp, and returns the
events in their total order. All visibility questions go through one
ancestor cache that the whole pass shares, so every function that asks one
is a `Cached` computation: a state computation over the cache that fails
when the recursion of `_ancestor_ids` is deeper than `depth` allows
(`RecursionError` in Python; a pass over `n` events gets `n + 1`, which
acyclic parents never use up, `L2Consensus.Ancestry`).
-/
namespace Mdrj.L2
open Mdrj.Core Mdrj.L1

/-- mirrors mdrj/consensus.py:12-17 -/
structure MembershipEntry where
  nodeId : String
  address : String
  role : String := "node"
  isSelf : Bool := false

/-- mirrors mdrj/consensus.py:20-39 -/
structure ConsensusState where
  eventId : String
  creator : String
  selfParentId : Option String
  otherParentId : Option String
  round : Nat
  roundReceived : Option Nat
  isWitness : Bool
  isFamousWitness : Bool
  fameDecided : Bool
  fameDecisionRound : Option Nat
  fameDecisionKind : FameDecisionKind
  fameNeedsCoin : Bool
  fameCoinUsed : Bool
  fameCoinRound : Option Nat
  fameVoteRound : Option Nat
  fameVoteYes : Nat
  fameVoteNo : Nat
  consensusTs : Option Flt
  deriving DecidableEq

/-- mirrors mdrj/consensus.py:42-44 -/
structure ConsensusEngine where
  nodeId : String

/-- The distinct nonblank trimmed ids of the entries, in order.
mirrors mdrj/consensus.py:203-210 -/
def memberIds (membership : List MembershipEntry) : List String :=
  membership.foldl (fun seen entry =>
    let nodeId := strip entry.nodeId
    if nodeId = "" ∨ nodeId ∈ seen then seen else seen ++ [nodeId]) []

/-- mirrors mdrj/consensus.py:202-213 -/
def ConsensusEngine.normalizeMembership (engine : ConsensusEngine)
    (membership : List MembershipEntry) : List String :=
  let normalized := memberIds membership
  if engine.nodeId ∈ normalized then normalized else normalized ++ [engine.nodeId]

/-- mirrors mdrj/consensus.py:215-216 -/
def supermajorityThreshold (members : Nat) : Nat := max 1 (2 * members / 3 + 1)

/-! ## Visibility -/

abbrev AncestorCache := Dict String (List String)

abbrev Cached := StateT AncestorCache Option

/-- What one pass fixes: the events by id, the member ids and the recursion
bound. -/
structure Ctx where
  byId : Dict String Event
  membershipIds : List String
  depth : Nat

/-- mirrors mdrj/consensus.py:218-235 -/
def ancestorIds (byId : Dict String Event) : Nat → String → Cached (List String)
  | 0, _ => failure
  | depth + 1, eventId => do
    let cache ← get
    match Dict.get cache eventId with
    | some seen => pure seen
    | none =>
      match Dict.get byId eventId with
      | none => do
        modify fun cache => Dict.set cache eventId []
        pure []
      | some event => do
        let seen ← loopM (fun seen parentId => do
          let more ← ancestorIds byId depth parentId
          pure (seen.insert parentId ∪ more)) [] event.parents
        modify fun cache => Dict.set cache eventId seen
        pure seen

/-- mirrors mdrj/consensus.py:237-244 -/
def canSee (ctx : Ctx) (observerId targetId : String) : Cached Bool :=
  if observerId = targetId then pure true
  else do
    let seen ← ancestorIds ctx.byId ctx.depth observerId
    pure (decide (targetId ∈ seen))

/-- `len(set(xs).intersection(ys))`. -/
def commonCount (xs ys : List String) : Nat := (xs.toFinset ∩ ys.toFinset).card

/-- mirrors mdrj/consensus.py:246-259 -/
def seesSupermajority (ctx : Ctx) (eventId : String) (witnessIds : List String) : Cached Bool := do
  let seenCreators ← collectM (fun witnessId =>
    match Dict.get ctx.byId witnessId with
    | none => pure none
    | some witness => do
      let sees ← canSee ctx eventId witnessId
      pure (if sees then some witness.author else none)) witnessIds
  pure (decide (supermajorityThreshold ctx.membershipIds.length ≤
    commonCount seenCreators ctx.membershipIds))

/-! ## Rounds and witnesses -/

/-- The dictionaries the round loop fills. -/
structure RoundTable where
  rounds : Dict String Nat := []
  witnessFlags : Dict String Bool := []
  witnessesByRound : Dict Nat (Dict String String) := []

/-- `witnesses_by_round.get(round_no, {})`, creator to witness id. -/
def RoundTable.witnesses (t : RoundTable) (roundNo : Nat) : Dict String String :=
  (Dict.get t.witnessesByRound roundNo).getD []

/-- mirrors mdrj/consensus.py:65-66 -/
def RoundTable.baseRound (t : RoundTable) (event : Event) : Nat :=
  (event.parents.filterMap (Dict.get t.rounds)).foldl max 0

/-- mirrors mdrj/consensus.py:72-77 -/
def RoundTable.assign (t : RoundTable) (event : Event) (eventRound : Nat) : RoundTable :=
  let creatorWitnesses := t.witnesses eventRound
  let isWitness := decide (event.author ∉ Dict.keys creatorWitnesses)
  { rounds := Dict.set t.rounds event.id eventRound
    witnessFlags := Dict.set t.witnessFlags event.id isWitness
    witnessesByRound := Dict.set t.witnessesByRound eventRound
      (if isWitness then Dict.set creatorWitnesses event.author event.id else creatorWitnesses) }

/-- mirrors mdrj/consensus.py:63-77 -/
def roundStep (ctx : Ctx) (t : RoundTable) (event : Event) : Cached RoundTable := do
  let baseRound := t.baseRound event
  let witnessIds := Dict.values (t.witnesses baseRound)
  let sees ← if witnessIds = [] then pure false else seesSupermajority ctx event.id witnessIds
  pure (t.assign event (if sees then baseRound + 1 else baseRound))

/-! ## Fame -/

abbrev Votes := Dict String (Option Bool)

/-- mirrors mdrj/consensus.py:362-373 -/
structure FameDecision where
  famous : Bool := false
  decided : Bool := false
  decisionRound : Option Nat := none
  decisionKind : FameDecisionKind := .pending
  needsCoin : Bool := false
  coinUsed : Bool := false
  coinRound : Option Nat := none
  voteRound : Option Nat := none
  voteYes : Nat := 0
  voteNo : Nat := 0
  deriving DecidableEq

/-- The votes of the next round: a member's witness votes for what it sees.
mirrors mdrj/consensus.py:310-314 -/
def firstVotes (ctx : Ctx) (nextWitnesses : Dict String String) (witnessId : String) :
    Cached Votes :=
  collectM (fun p =>
    if p.1 ∈ ctx.membershipIds then do
      let vote ← canSee ctx p.2 witnessId
      pure (some (p.1, some vote))
    else pure none) nextWitnesses

/-- mirrors mdrj/consensus.py:339-346 -/
def tally (threshold : Nat) (visibleVotes : List Bool) : Option Bool :=
  if threshold ≤ visibleVotes.count true then some true
  else if threshold ≤ visibleVotes.count false then some false
  else none

/-- The cast votes of the round before that `witnessId` sees.
mirrors mdrj/consensus.py:326-338 -/
def visibleVotes (ctx : Ctx) (before : Dict String String) (previousVotes : Votes)
    (witnessId : String) : Cached (List Bool) :=
  collectM (fun p =>
    match p.2, Dict.get before p.1 with
    | some vote, some prevWitnessId =>
      if p.1 ∈ ctx.membershipIds then do
        let sees ← canSee ctx witnessId prevWitnessId
        pure (if sees then some vote else none)
      else pure none
    | _, _ => pure none) previousVotes

/-- mirrors mdrj/consensus.py:321-346 -/
def laterVotes (ctx : Ctx) (before laterWitnesses : Dict String String) (previousVotes : Votes) :
    Cached Votes :=
  collectM (fun p =>
    if p.1 ∈ ctx.membershipIds then do
      let visible ← visibleVotes ctx before previousVotes p.2
      pure (some (p.1, tally (supermajorityThreshold ctx.membershipIds.length) visible))
    else pure none) laterWitnesses

/-- The votes on one witness, round after round.
mirrors mdrj/consensus.py:309-349 -/
def voteHistory (ctx : Ctx) (t : RoundTable) (orderedRounds : List Nat) (roundNo : Nat)
    (witnessId : String) : Cached (Dict Nat Votes) := do
  let nextRound := roundNo + 1
  let first ← firstVotes ctx (t.witnesses nextRound) witnessId
  let start : Dict Nat Votes := if first.isEmpty then [] else [(nextRound, first)]
  let result ← loopM (fun (s : Dict Nat Votes × Votes) laterRound =>
    if laterRound ≤ roundNo + 1 then pure s
    else do
      let current ← laterVotes ctx (t.witnesses (laterRound - 1)) (t.witnesses laterRound) s.2
      pure (if current.isEmpty then s.1 else Dict.set s.1 laterRound current, current))
    (start, first) orderedRounds
  pure result.1

/-- `sorted` of numbers. -/
def sortedNats (xs : List Nat) : List Nat := xs.insertionSort (· ≤ ·)

/-- mirrors mdrj/consensus.py:410-412 -/
def deterministicCoinChoice (witnessId : String) (voteRound : Nat) : Bool :=
  let digest := Sha256.digest (Sha256.encode (witnessId ++ ":" ++ toString voteRound))
  digest.headD 0 % 2 == 1

/-- The loop over the vote rounds; the flag says that a round decided.
mirrors mdrj/consensus.py:374-398 -/
def resolveVotes (history : Dict Nat Votes) (threshold : Nat) :
    FameDecision → List Nat → FameDecision × Bool
  | decision, [] => (decision, false)
  | decision, voteRound :: rest =>
    let votes := Dict.values ((Dict.get history voteRound).getD [])
    let yesTotal := votes.count (some true)
    let noTotal := votes.count (some false)
    let seen := { decision with voteRound := some voteRound, voteYes := yesTotal, voteNo := noTotal }
    let decide (famous : Bool) : FameDecision :=
      { seen with famous := famous, decided := true, decisionRound := some voteRound,
                  decisionKind := .vote, needsCoin := false, coinUsed := false, coinRound := none }
    if threshold ≤ yesTotal then (decide true, true)
    else if threshold ≤ noTotal then (decide false, true)
    else resolveVotes history threshold seen rest

/-- mirrors mdrj/consensus.py:356-408 -/
def resolveFameFromVoteHistory (witnessId : String) (history : Dict Nat Votes) (threshold : Nat) :
    FameDecision :=
  match resolveVotes history threshold {} (sortedNats (Dict.keys history)) with
  | (decision, true) => decision
  | (decision, false) =>
    if 2 ≤ history.length then
      let coinRound := (Dict.keys history).foldl max 0
      { decision with famous := deterministicCoinChoice witnessId coinRound, decided := true,
                      decisionRound := some coinRound, decisionKind := .coinSurrogate,
                      needsCoin := false, coinUsed := true, coinRound := some coinRound }
    else decision

abbrev FameByRound := Dict Nat (Dict String FameDecision)

/-- The fame records of one round's witnesses.
mirrors mdrj/consensus.py:302-351 -/
def roundFame (ctx : Ctx) (t : RoundTable) (orderedRounds : List Nat) (roundNo : Nat) :
    Cached (Dict String FameDecision) :=
  collectM (fun p => do
    let history ← voteHistory ctx t orderedRounds roundNo p.2
    pure (some (p.2, resolveFameFromVoteHistory p.2 history
      (supermajorityThreshold ctx.membershipIds.length)))) (t.witnesses roundNo)

/-- mirrors mdrj/consensus.py:289-354 -/
def fameDecisions (ctx : Ctx) (t : RoundTable) : Cached FameByRound :=
  let orderedRounds := sortedNats (Dict.keys t.witnessesByRound)
  collectM (fun roundNo => do
    let fame ← roundFame ctx t orderedRounds roundNo
    pure (some (roundNo, fame))) orderedRounds

/-- `fame_by_round.get(round_no, {}).get(event_id, {})`; the record of an
event without one is the pending record. -/
def fameOf (fame : FameByRound) (roundNo : Nat) (eventId : String) : FameDecision :=
  (Dict.get ((Dict.get fame roundNo).getD []) eventId).getD {}

/-- mirrors mdrj/consensus.py:85-93 -/
def famousWitnesses (t : RoundTable) (fame : FameByRound) (roundNo : Nat) : Dict String String :=
  (t.witnesses roundNo).filter fun p =>
    (fameOf fame roundNo p.2).decided && (fameOf fame roundNo p.2).famous

/-! ## Received round, timestamp and order -/

/-- mirrors mdrj/consensus.py:280-285 -/
def seenBySupermajority (ctx : Ctx) (witnesses : Dict String String) (eventId : String) :
    Cached Bool := do
  let seeingCreators ← collectM (fun p => do
    let sees ← canSee ctx p.2 eventId
    pure (if sees then some p.1 else none)) witnesses
  pure (decide (supermajorityThreshold ctx.membershipIds.length ≤
    commonCount seeingCreators ctx.membershipIds))

/-- The body of the round loop of `_round_received`: does `roundNo` receive
the event? A partly decided round is skipped.
mirrors mdrj/consensus.py:273-286 -/
def receives (ctx : Ctx) (t : RoundTable) (fame : FameByRound) (eventId : String)
    (roundNo : Nat) : Cached Bool :=
  let fameState := Dict.values ((Dict.get fame roundNo).getD [])
  if fameState ≠ [] ∧ fameState.all (·.decided) then
    seenBySupermajority ctx (famousWitnesses t fame roundNo) eventId
  else if fameState ≠ [] ∧ fameState.any (·.decided) then pure false
  else seenBySupermajority ctx (t.witnesses roundNo) eventId

/-- mirrors mdrj/consensus.py:261-287 -/
def roundReceived (ctx : Ctx) (t : RoundTable) (fame : FameByRound) (eventId : String) :
    Cached (Option Nat) :=
  firstM (receives ctx t fame eventId) (sortedNats (Dict.keys t.witnessesByRound))

/-- `sorted` of floats. -/
def sortedFlts (xs : List Flt) : List Flt := ListSort.sorted Flt.lt xs

/-- mirrors mdrj/utils.py:61-68 -/
def median (values : List Flt) : Flt :=
  let ordered := sortedFlts values
  let mid := ordered.length / 2
  if ordered.length % 2 = 1 then ordered.getD mid .nan
  else ((ordered.getD (mid - 1) .nan).add (ordered.getD mid .nan)).half

/-- mirrors mdrj/consensus.py:436-443 -/
def observe (membershipIds : List String) (observations : Dict String Flt) (hop : Hop) :
    Dict String Flt :=
  let nodeId := strip (hop.node.getD "")
  match hop.ts with
  | none => observations
  | some ts =>
    if nodeId ∉ membershipIds then observations
    else
      match Dict.get observations nodeId with
      | none => Dict.set observations nodeId ts
      | some known => if Flt.lt ts known then Dict.set observations nodeId ts else observations

/-- mirrors mdrj/consensus.py:429-446 -/
def consensusTimestamp (eventId : String) (membershipIds : List String) (quorum : Nat)
    (pathMeta : Dict String (List Hop)) : Option Flt :=
  let observations := ((Dict.get pathMeta eventId).getD []).foldl (observe membershipIds) []
  if observations.length < quorum then none else some (median (Dict.values observations))

/-- A sort key of `total_order`; a missing round or timestamp sorts as
`float("inf")`. -/
structure OrderKey where
  roundReceived : Option Int
  consensusTs : Flt
  id : String
  index : Nat

/-- `<` on the tuples `(rr_key, ts_key, id, index, event)`: the first entry
that is neither identical nor equal decides. `json.loads` gives every NaN as
one object. -/
def OrderKey.lt (a b : OrderKey) : Bool :=
  if a.roundReceived ≠ b.roundReceived then
    match a.roundReceived, b.roundReceived with
    | some x, some y => decide (x < y)
    | some _, none => true
    | none, _ => false
  else if a.consensusTs ≠ b.consensusTs then Flt.lt a.consensusTs b.consensusTs
  else if a.id ≠ b.id then decide (a.id < b.id)
  else decide (a.index < b.index)

/-- mirrors mdrj/consensus.py:167-175 -/
def orderKey (resolved : Dict String (Option Int × Option Flt)) (index : Nat) (event : Event) :
    OrderKey :=
  let (roundReceived, consensusTs) :=
    (Dict.get resolved event.id).getD (event.roundReceived, event.consensusTs)
  ⟨roundReceived, consensusTs.getD .posInf, event.id, index⟩

/-- mirrors mdrj/consensus.py:162-177 -/
def totalOrder (events : List Event) (resolved : Dict String (Option Int × Option Flt)) :
    List Event :=
  let decorated := events.zipIdx.map fun p => (orderKey resolved p.2 p.1, p.1)
  (ListSort.sorted (fun a b => OrderKey.lt a.1 b.1) decorated).map Prod.snd

/-! ## The pass -/

/-- mirrors mdrj/consensus.py:138-159 -/
def consensusState (t : RoundTable) (fame : FameByRound) (event : Event)
    (received : Option Nat) (consensusTs : Option Flt) : ConsensusState :=
  let round := (Dict.get t.rounds event.id).getD 0
  let record := fameOf fame round event.id
  { eventId := event.id
    creator := event.author
    selfParentId := event.selfParentId
    otherParentId := event.otherParentId
    round := round
    roundReceived := received
    isWitness := (Dict.get t.witnessFlags event.id).getD false
    isFamousWitness := record.famous
    fameDecided := record.decided
    fameDecisionRound := record.decisionRound
    fameDecisionKind := record.decisionKind
    fameNeedsCoin := record.needsCoin
    fameCoinUsed := record.coinUsed
    fameCoinRound := record.coinRound
    fameVoteRound := record.voteRound
    fameVoteYes := record.voteYes
    fameVoteNo := record.voteNo
    consensusTs := if received.isSome then consensusTs else none }

/-- `{event.id: event for event in topo}`. -/
def indexById (events : List Event) : Dict String Event :=
  events.foldl (fun d event => Dict.set d event.id event) []

/-- mirrors mdrj/consensus.py:55-160 -/
def recomputePass (ctx : Ctx) (topo : List Event) (pathMeta : Dict String (List Hop)) :
    Cached (List ConsensusState) := do
  let t ← loopM (roundStep ctx) {} topo
  let fame ← fameDecisions ctx t
  let quorum := supermajorityThreshold ctx.membershipIds.length
  let timestamp := fun event : Event =>
    consensusTimestamp event.id ctx.membershipIds quorum pathMeta
  let resolved ← collectM (fun event => do
    let received ← roundReceived ctx t fame event.id
    pure (some (event.id, (received.map Int.ofNat, timestamp event)))) topo
  let ordered := totalOrder topo resolved
  let position := fun event : Event => (ordered.map Event.id).idxOf event.id
  collectM (fun event => do
    let received ← roundReceived ctx t fame event.id
    pure (some (consensusState t fame event received (timestamp event))))
    (topo.insertionSort fun a b => position a ≤ position b)

def ConsensusEngine.ctx (engine : ConsensusEngine) (events : List Event)
    (membership : List MembershipEntry) : Ctx :=
  ⟨indexById events, engine.normalizeMembership membership, events.length + 1⟩

/-- mirrors mdrj/consensus.py:46-160 -/
def ConsensusEngine.recompute (engine : ConsensusEngine) (events : List Event)
    (membership : List MembershipEntry) (pathMeta : Dict String (List Hop)) :
    Option (List ConsensusState) :=
  (recomputePass (engine.ctx events membership) events pathMeta).run' []

end Mdrj.L2
