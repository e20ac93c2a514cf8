import Mdrj.Core.Runs
import Mdrj.L4Node.Membership
import Mdrj.L4Node.Quorums

/-!
# Checkpoint rows move forward

What a sequence of operations does to the rows of `checkpoints`. The state
is the process: the node with `_checkpoint_confirmed_count`, which counts
the rows this process has confirmed. Proposals come off the wire, where a
text may hold a lone surrogate; SQLite cannot bind such a text, and the
count has been raised by then.

* `rows_kept`: no operation changes a root, drops a signature or takes a
  confirmation back.
* `checkpoints_move_forward`: the count is right along a run exactly when no
  confirming proposal has a text that cannot be written.

The proposer and the signature are plain: they reach the table through
`canonical_json`, which escapes a lone surrogate like any other character.
-/
namespace Mdrj.L4
open Mdrj.Core Mdrj.L1 Mdrj.L2 Mdrj.L3

/-! ## Proposals off the wire -/

/-- A Python `str`: one SQLite can bind, or one with a lone surrogate, given
by what `json.dumps` writes between the quotes. -/
inductive Text where
  | plain (s : String)
  | lone (escaped : List Char)
  deriving DecidableEq

namespace Text

def quote : Text → List Char
  | .plain s => L1.quote s
  | .lone escaped => '"' :: escaped ++ ['"']

/-- The text as SQLite stores it. -/
def bound : Text → Option String
  | .plain s => some s
  | .lone _ => none

end Text

/-- A proposal as `from_dict` builds it.
mirrors mdrj/checkpoint.py:30-36 -/
structure WireProposal where
  roundReceived : Int
  merkleRoot : Text
  membersSnapshotHash : Text
  proposerNodeId : String
  signature : String := ""

/-- The entries of a body that `from_dict` reads. -/
structure WirePayload where
  roundReceived : Option (Except PyError Int)
  merkleRoot : Option (Except PyError Text)
  membersSnapshotHash : Option (Except PyError Text)
  proposerNodeId : Option (Except PyError String)
  signature : Option (Except PyError String)

namespace WireProposal

/-- mirrors mdrj/checkpoint.py:52-60 -/
def fromDict (data : WirePayload) : Except PyError WireProposal := do
  let roundReceived ← Payload.required "round_received" data.roundReceived
  let merkleRoot ← Payload.required "merkle_root" data.merkleRoot
  let membersSnapshotHash ← Payload.required "members_snapshot_hash" data.membersSnapshotHash
  let proposerNodeId ← Payload.optional data.proposerNodeId
  let signature ← Payload.optional data.signature
  return ⟨roundReceived, merkleRoot, membersSnapshotHash, proposerNodeId, signature⟩

/-- `canonical_json` of the canonical body.
mirrors mdrj/checkpoint.py:38-43 -/
def canonicalBody (p : WireProposal) : List Char :=
  '\x7b' :: commaSeparated [
    quote "members_snapshot_hash" ++ ':' :: p.membersSnapshotHash.quote,
    quote "merkle_root" ++ ':' :: p.merkleRoot.quote,
    quote "round_received" ++ ':' :: (toString p.roundReceived).toList] ++ ['\x7d']

/-- mirrors mdrj/checkpoint.py:100-109 -/
def verifySignature (p : WireProposal) (hmacKey : String) : Except PyError Bool :=
  if p.signature.toList.all (·.toNat < 128) then
    .ok (Sha256.hmac (Sha256.encode hmacKey) (Sha256.encode (String.ofList p.canonicalBody)) = p.signature)
  else .error .typeError

/-- The proposal with both of its texts bound. -/
def bound (p : WireProposal) : Option CheckpointProposal :=
  match p.merkleRoot.bound, p.membersSnapshotHash.bound with
  | some root, some hash => some ⟨p.roundReceived, root, hash, p.proposerNodeId, p.signature⟩
  | _, _ => none

/-- A row with another root.
mirrors mdrj/node.py:1833 -/
def mismatches (p : WireProposal) (existing : Option CheckpointRow) : Bool :=
  existing.any fun row => .plain row.merkleRoot ≠ p.merkleRoot

/-- The quorum is reached, and was not before.
mirrors mdrj/node.py:1841-1849 -/
def confirms (p : WireProposal) (existing : Option CheckpointRow) (members : List String) : Bool :=
  isQuorumReached (Dict.set ((existing.map CheckpointRow.signatures).getD [])
      p.proposerNodeId p.signature) members &&
    decide (existing.map CheckpointRow.status ≠ some .confirmed)

end WireProposal

/-- A proposal of plain texts, as it travels. -/
def CheckpointProposal.wire (p : CheckpointProposal) : WireProposal :=
  ⟨p.roundReceived, .plain p.merkleRoot, .plain p.membersSnapshotHash, p.proposerNodeId, p.signature⟩

theorem WireProposal.bound_eq_some {p : WireProposal} {q : CheckpointProposal} :
    p.bound = some q ↔ p = q.wire := by
  obtain ⟨round, root, hash, proposer, signature⟩ := p
  obtain ⟨round', root', hash', proposer', signature'⟩ := q
  cases root with
  | lone escaped => simp [bound, Text.bound, CheckpointProposal.wire]
  | plain root =>
    cases hash with
    | lone escaped => simp [bound, Text.bound, CheckpointProposal.wire]
    | plain hash => simp [bound, Text.bound, CheckpointProposal.wire]

theorem CheckpointProposal.canonicalBody_wire (p : CheckpointProposal) :
    p.wire.canonicalBody = canonicalChars p.canonicalBody := by
  unfold WireProposal.canonicalBody CheckpointProposal.canonicalBody
  have h1 : ¬ ("round_received" : String) ≤ "merkle_root" := by decide
  have h2 : ¬ ("merkle_root" : String) ≤ "members_snapshot_hash" := by decide
  have h3 : ¬ ("round_received" : String) ≤ "members_snapshot_hash" := by decide
  have hsort : L1.sortKeys [("round_received", (toString p.roundReceived).toList),
      ("merkle_root", L1.quote p.merkleRoot), ("members_snapshot_hash", L1.quote p.membersSnapshotHash)] =
      [("members_snapshot_hash", L1.quote p.membersSnapshotHash), ("merkle_root", L1.quote p.merkleRoot),
        ("round_received", (toString p.roundReceived).toList)] := by
    simp [L1.sortKeys, List.orderedInsert, h1, h2, h3]
  simp only [canonicalChars, canonicalFields]
  rw [hsort]
  rfl

theorem CheckpointProposal.verifySignature_wire (p : CheckpointProposal) (hmacKey : String) :
    p.wire.verifySignature hmacKey = verifyProposalSignature p p.signature hmacKey := by
  unfold WireProposal.verifySignature verifyProposalSignature signProposal canonicalJson
  rw [canonicalBody_wire]
  rfl

/-- A payload of plain texts, as it travels. -/
def Payload.wire (payload : Payload) : WirePayload :=
  ⟨payload.roundReceived, payload.merkleRoot.map fun root => root.map .plain,
    payload.membersSnapshotHash.map fun hash => hash.map .plain, payload.proposerNodeId, payload.signature⟩

theorem WireProposal.fromDict_wire (payload : Payload) :
    fromDict payload.wire = (CheckpointProposal.fromDict payload).map CheckpointProposal.wire := by
  obtain ⟨round, root, hash, proposer, signature⟩ := payload
  have hr : Payload.required "merkle_root" (root.map fun root => root.map Text.plain) =
      (Payload.required "merkle_root" root).map .plain := by
    cases root <;> rfl
  have hh : Payload.required "members_snapshot_hash" (hash.map fun hash => hash.map Text.plain) =
      (Payload.required "members_snapshot_hash" hash).map .plain := by
    cases hash <;> rfl
  unfold fromDict CheckpointProposal.fromDict Payload.wire
  dsimp only
  rw [hr, hh]
  cases Payload.required "round_received" round with
  | error err => rfl
  | ok r =>
    cases Payload.required "merkle_root" root with
    | error err => rfl
    | ok root =>
      cases Payload.required "members_snapshot_hash" hash with
      | error err => rfl
      | ok hash =>
        cases Payload.optional proposer with
        | error err => rfl
        | ok proposer =>
          cases Payload.optional signature <;> rfl

/-! ## The process -/

structure Process where
  node : Node
  checkpointConfirmedCount : Nat := 0

namespace Process

/-- The count is raised before the row is written.
mirrors mdrj/node.py:1828-1863 -/
def recordProposalSignature (s : Process) (p : WireProposal) (now : Flt) :
    Process × Except PyError (Option CheckpointRow) :=
  match s.node.storage.getCheckpoint p.roundReceived with
  | .error err => (s, .error err)
  | .ok existing =>
    if p.mismatches existing then (s, .ok existing)
    else
      let count := s.checkpointConfirmedCount +
        if p.confirms existing s.node.membershipNodeIds then 1 else 0
      let s := { s with checkpointConfirmedCount := count }
      match p.bound with
      | none => (s, .error .unicodeEncodeError)
      | some q =>
        let row := Node.signedRow existing q s.node.membershipNodeIds now
        let storage := s.node.storage.upsertCheckpoint q.roundReceived row
        ({ s with node := { s.node with storage := storage } }, storage.getCheckpoint q.roundReceived)

/-- The proposal of a body, if it may be recorded: an empty signature is not
checked.
mirrors mdrj/node.py:1870-1875 -/
def checkedProposal (hmacKey : String) (payload : WirePayload) : Except PyError WireProposal :=
  match WireProposal.fromDict payload with
  | .error err => .error err
  | .ok p =>
    if hmacKey ≠ "" ∧ p.signature ≠ "" then
      match p.verifySignature hmacKey with
      | .error err => .error err
      | .ok false => .error (.valueError "invalid checkpoint signature")
      | .ok true => .ok p
    else .ok p

/-- mirrors mdrj/node.py:1865-1876 -/
def ingestCheckpointProposal (s : Process) (payload : WirePayload) (now : Flt) :
    Process × Except PyError (Option CheckpointRow) :=
  match checkedProposal s.node.config.hmacKey payload with
  | .error err => (s, .error err)
  | .ok p => s.recordProposalSignature p now

/-- mirrors mdrj/node.py:1802-1826 -/
def proposeLocalCheckpoint (s : Process) (targetRound : Int) (now : Flt) :
    Process × Except PyError CheckpointProposal :=
  let n := s.node
  if targetRound < 0 then (s, .error (.valueError "target_round must be non-negative"))
  else if n.config.hmacKey = "" then
    (s, .error (.valueError "security.hmac_key must be set to propose checkpoints"))
  else if (n.eventsUpToRoundReceived targetRound).isEmpty then
    (s, .error (.valueError ("no events with round_received <= " ++ toString targetRound)))
  else
    let proposal := n.localProposal targetRound
    match s.recordProposalSignature proposal.wire now with
    | (s, .error err) => (s, .error err)
    | (s, .ok _) => (s, .ok proposal)

/-! ## The two levels

On plain texts the process does to its node what the node's own operations
say. -/

theorem recordProposalSignature_wire (s : Process) (p : CheckpointProposal) (now : Flt) :
    (s.recordProposalSignature p.wire now).1.node = (s.node.recordProposalSignature p now).node ∧
      (s.recordProposalSignature p.wire now).2 = (s.node.recordProposalSignature p now).result := by
  have hbound : p.wire.bound = some p := WireProposal.bound_eq_some.2 rfl
  have hmis : ∀ existing, p.wire.mismatches existing =
      existing.any (·.merkleRoot ≠ p.merkleRoot) := by
    intro existing
    simp [WireProposal.mismatches, CheckpointProposal.wire]
  unfold recordProposalSignature Node.recordProposalSignature
  have hround : p.wire.roundReceived = p.roundReceived := rfl
  rw [hround]
  cases s.node.storage.getCheckpoint p.roundReceived with
  | error err => exact ⟨rfl, rfl⟩
  | ok existing =>
    dsimp only
    rw [hmis existing, hbound]
    split <;> exact ⟨rfl, rfl⟩

theorem proposeLocalCheckpoint_node (s : Process) (targetRound : Int) (now : Flt) :
    (s.proposeLocalCheckpoint targetRound now).1.node =
        (s.node.proposeLocalCheckpoint targetRound now).node ∧
      (s.proposeLocalCheckpoint targetRound now).2 =
        (s.node.proposeLocalCheckpoint targetRound now).result := by
  obtain ⟨hnode, hresult⟩ := recordProposalSignature_wire s (s.node.localProposal targetRound) now
  unfold proposeLocalCheckpoint Node.proposeLocalCheckpoint
  dsimp only
  split
  · exact ⟨rfl, rfl⟩
  · split
    · exact ⟨rfl, rfl⟩
    · split
      · exact ⟨rfl, rfl⟩
      · split
        · rename_i s' err hs
          rw [hs] at hnode hresult
          split
          · rename_i n' err' hn
            rw [hn] at hnode hresult
            exact ⟨hnode, congrArg _ (Except.error.inj hresult)⟩
          · rename_i n' row hn
            rw [hn] at hresult
            cases hresult
        · rename_i s' row hs
          rw [hs] at hnode hresult
          split
          · rename_i n' err' hn
            rw [hn] at hresult
            cases hresult
          · rename_i n' row' hn
            rw [hn] at hnode
            exact ⟨hnode, rfl⟩

theorem ingestCheckpointProposal_wire (s : Process) (payload : Payload) (now : Flt) :
    (s.ingestCheckpointProposal payload.wire now).1.node =
        (s.node.ingestCheckpointProposal payload now).node ∧
      (s.ingestCheckpointProposal payload.wire now).2 =
        (s.node.ingestCheckpointProposal payload now).result := by
  unfold ingestCheckpointProposal Node.ingestCheckpointProposal checkedProposal
  rw [WireProposal.fromDict_wire]
  cases CheckpointProposal.fromDict payload with
  | error err => exact ⟨rfl, rfl⟩
  | ok p =>
    have hrec := recordProposalSignature_wire s p now
    have hsig : p.wire.signature = p.signature := rfl
    simp only [Except.map, hsig, CheckpointProposal.verifySignature_wire]
    by_cases hkey : s.node.config.hmacKey ≠ "" ∧ p.signature ≠ ""
    · simp only [if_pos hkey]
      cases verifyProposalSignature p p.signature s.node.config.hmacKey with
      | error err => exact ⟨rfl, rfl⟩
      | ok passed =>
        cases passed with
        | false => exact ⟨rfl, rfl⟩
        | true => exact hrec
    · simp only [if_neg hkey]
      exact hrec

end Process

/-! ## Forward -/

/-- The status of the row of a round. -/
def Confirmed (s : DAGStorage) (r : Int) : Prop :=
  (Dict.get s.checkpoints r).map CheckpointRow.status = some .confirmed

instance (s : DAGStorage) (r : Int) : Decidable (Confirmed s r) :=
  inferInstanceAs (Decidable (_ = _))

/-- A row stays, with its root, its signers and its confirmation. -/
def RowsKept (s s' : DAGStorage) : Prop :=
  ∀ r row, Dict.get s.checkpoints r = some row → ∃ row', Dict.get s'.checkpoints r = some row' ∧
    row'.merkleRoot = row.merkleRoot ∧
    (∀ k ∈ Dict.keys row.signatures, k ∈ Dict.keys row'.signatures) ∧
    (row.status = .confirmed → row'.status = .confirmed)

theorem RowsKept.of_eq {s s' : DAGStorage} (h : s'.checkpoints = s.checkpoints) : RowsKept s s' := by
  intro r row hrow
  exact ⟨row, by rw [h]; exact hrow, rfl, fun _ hk => hk, fun hc => hc⟩

theorem RowsKept.trans {s s' s'' : DAGStorage} (h : RowsKept s s') (h' : RowsKept s' s'') :
    RowsKept s s'' := by
  intro r row hrow
  obtain ⟨row', hrow', hroot, hkeys, hstatus⟩ := h r row hrow
  obtain ⟨row'', hrow'', hroot', hkeys', hstatus'⟩ := h' r row' hrow'
  exact ⟨row'', hrow'', hroot'.trans hroot, fun k hk => hkeys' k (hkeys k hk),
    fun hc => hstatus' (hstatus hc)⟩

/-- The rounds whose rows became confirmed. -/
def newlyConfirmed (s s' : DAGStorage) : Finset Int :=
  (Dict.keys s'.checkpoints).toFinset.filter fun r => Confirmed s' r ∧ ¬ Confirmed s r

theorem mem_newlyConfirmed {s s' : DAGStorage} {r : Int} :
    r ∈ newlyConfirmed s s' ↔ Confirmed s' r ∧ ¬ Confirmed s r := by
  unfold newlyConfirmed
  rw [Finset.mem_filter, List.mem_toFinset]
  refine ⟨fun h => h.2, fun h => ⟨?_, h⟩⟩
  obtain ⟨row, hrow, -⟩ := Option.map_eq_some_iff.1 h.1
  exact Dict.mem_keys.2 ⟨row, hrow⟩

theorem newlyConfirmed_of_eq {s s' : DAGStorage} (h : s'.checkpoints = s.checkpoints) :
    newlyConfirmed s s' = ∅ := by
  apply Finset.eq_empty_of_forall_notMem
  intro r hr
  obtain ⟨hc, hnc⟩ := mem_newlyConfirmed.1 hr
  unfold Confirmed at hc hnc
  rw [h] at hc
  exact hnc hc

/-- The distinct nonblank ids of the active members. -/
def activeIds (n : Node) : Finset String := (n.membershipNodeIds.filter (· ≠ "")).toFinset

/-- One step of the process: rows are kept, a row is confirmed by two thirds
of the active members, and the count follows. -/
structure Forward (s s' : Process) : Prop where
  rows : RowsKept s.node.storage s'.node.storage
  quorum : ∀ r ∈ newlyConfirmed s.node.storage s'.node.storage,
    ∃ row, Dict.get s'.node.storage.checkpoints r = some row ∧
      ⌈(2 * (activeIds s'.node).card : ℚ) / 3⌉₊ ≤
        ((activeIds s'.node).filter fun m => m ∈ Dict.keys row.signatures).card
  count : s'.checkpointConfirmedCount =
    s.checkpointConfirmedCount + (newlyConfirmed s.node.storage s'.node.storage).card

/-- What the operations on the graph do: nothing to the rows. -/
theorem Forward.of_eq {s s' : Process}
    (h : s'.node.storage.checkpoints = s.node.storage.checkpoints)
    (hcount : s'.checkpointConfirmedCount = s.checkpointConfirmedCount) : Forward s s' where
  rows := .of_eq h
  quorum := by
    intro r hr
    rw [newlyConfirmed_of_eq h] at hr
    exact absurd hr (Finset.notMem_empty r)
  count := by rw [newlyConfirmed_of_eq h, hcount]; rfl

/-! ## Recording -/

/-- A proposal raises the count and cannot be written. -/
def Process.CountsUnwritten (s : Process) (p : WireProposal) : Prop :=
  p.bound = none ∧ ∃ existing, s.node.storage.getCheckpoint p.roundReceived = .ok existing ∧
    ¬ p.mismatches existing ∧ p.confirms existing s.node.membershipNodeIds = true

section Record
variable {s : DAGStorage} {existing : Option CheckpointRow} {q : CheckpointProposal}
  {members : List String} {now : Flt}

theorem signedRow_status (now : Flt) : (Node.signedRow existing q members now).status = .confirmed ↔
    existing.map CheckpointRow.status = some .confirmed ∨ q.wire.confirms existing members = true := by
  unfold Node.signedRow WireProposal.confirms
  dsimp only [CheckpointProposal.wire]
  by_cases hq : isQuorumReached (Dict.set ((existing.map CheckpointRow.signatures).getD [])
      q.proposerNodeId q.signature) members = true
  · rw [hq, if_pos rfl, Bool.true_and, decide_eq_true_eq]
    exact ⟨fun _ => em _, fun _ => rfl⟩
  · rw [Bool.not_eq_true] at hq
    simp only [hq, Bool.false_and, Bool.false_eq_true, if_false, or_false]
    split <;> simp_all

theorem upsert_confirmed (hex : Dict.get s.checkpoints q.roundReceived = existing) (r : Int) :
    Confirmed (s.upsertCheckpoint q.roundReceived (Node.signedRow existing q members now)) r ↔
      Confirmed s r ∨ r = q.roundReceived ∧ q.wire.confirms existing members = true := by
  subst hex
  unfold Confirmed DAGStorage.upsertCheckpoint
  dsimp only
  by_cases hr : r = q.roundReceived
  · subst hr
    rw [Dict.get_set_self, Option.map_some, Option.some.injEq]
    change (Node.signedRow _ q members now).status = .confirmed ↔ _
    rw [signedRow_status]
    simp
  · rw [Dict.get_set_ne _ _ (Ne.symm hr)]
    simp [hr]

theorem upsert_rowsKept (hex : Dict.get s.checkpoints q.roundReceived = existing)
    (hroot : ∀ row, existing = some row → row.merkleRoot = q.merkleRoot) :
    RowsKept s (s.upsertCheckpoint q.roundReceived (Node.signedRow existing q members now)) := by
  intro r row hrow
  by_cases hr : q.roundReceived = r
  · subst hr
    obtain rfl : existing = some row := hex.symm.trans hrow
    obtain ⟨t, ht⟩ := s.upsertCheckpoint_get q.roundReceived (Node.signedRow (some row) q members now)
    refine ⟨_, ht, (hroot row rfl).symm, ?_, ?_⟩
    · intro k hk
      exact Dict.mem_keys_set.2 (.inr hk)
    · intro hc
      exact (signedRow_status now).2 (.inl (by rw [Option.map_some, hc]))
  · refine ⟨row, ?_, rfl, fun _ hk => hk, fun hc => hc⟩
    unfold DAGStorage.upsertCheckpoint
    dsimp only
    rw [Dict.get_set_ne _ _ hr]
    exact hrow

theorem upsert_newlyConfirmed (members : List String) (now : Flt)
    (hex : Dict.get s.checkpoints q.roundReceived = existing) :
    newlyConfirmed s (s.upsertCheckpoint q.roundReceived (Node.signedRow existing q members now)) =
      if q.wire.confirms existing members then {q.roundReceived} else ∅ := by
  have hnew : q.wire.confirms existing members = true → ¬ Confirmed s q.roundReceived := by
    intro hc hconf
    unfold WireProposal.confirms at hc
    unfold Confirmed at hconf
    rw [hex] at hconf
    simp [hconf] at hc
  ext r
  rw [mem_newlyConfirmed, upsert_confirmed hex]
  split
  · rename_i hc
    rw [Finset.mem_singleton]
    constructor
    · intro h
      exact (h.1.resolve_left h.2).1
    · intro h
      exact ⟨.inr ⟨h, hc⟩, h ▸ hnew hc⟩
  · rename_i hc
    have hno : ¬ ((Confirmed s r ∨ r = q.roundReceived ∧ q.wire.confirms existing members = true) ∧
        ¬ Confirmed s r) := fun h => hc (h.1.resolve_left h.2).2
    exact ⟨fun h => absurd h hno, fun h => absurd h (Finset.notMem_empty r)⟩

/-- A proposal for the root that is there, or for none, is a step forward. -/
theorem upsert_forward (s : Process) (now : Flt)
    (hex : Dict.get s.node.storage.checkpoints q.roundReceived = existing)
    (hroot : ∀ row, existing = some row → row.merkleRoot = q.merkleRoot) :
    Forward s
      { s with
        checkpointConfirmedCount := s.checkpointConfirmedCount +
          if q.wire.confirms existing s.node.membershipNodeIds then 1 else 0
        node := { s.node with
          storage := s.node.storage.upsertCheckpoint q.roundReceived
            (Node.signedRow existing q s.node.membershipNodeIds now) } } := by
  have hnew := upsert_newlyConfirmed s.node.membershipNodeIds now hex
  refine ⟨upsert_rowsKept hex hroot, ?_, ?_⟩
  · intro r hr
    rw [hnew] at hr
    split at hr
    · rename_i hconf
      obtain rfl := Finset.mem_singleton.1 hr
      obtain ⟨t, ht⟩ := s.node.storage.upsertCheckpoint_get q.roundReceived
        (Node.signedRow existing q s.node.membershipNodeIds now)
      refine ⟨_, ht, isQuorumReached_ceil ?_⟩
      exact (Bool.and_eq_true_iff.1 hconf).1
    · exact absurd hr (Finset.notMem_empty r)
  · rw [hnew]
    split <;> simp

end Record

/-- What cannot be bound is not written. -/
theorem Process.recordProposalSignature_unwritten {s : Process} {p : WireProposal} {now : Flt}
    (h : p.bound = none) : (s.recordProposalSignature p now).1.node = s.node := by
  unfold Process.recordProposalSignature
  rw [h]
  split
  · rfl
  · split <;> rfl

/-- Recording moves forward, unless it counts a confirmation that it cannot
write. -/
theorem Process.recordProposalSignature_forward (s : Process) (p : WireProposal) (now : Flt) :
    Forward s (s.recordProposalSignature p now).1 ↔ ¬ s.CountsUnwritten p := by
  unfold Process.recordProposalSignature Process.CountsUnwritten
  cases hget : s.node.storage.getCheckpoint p.roundReceived with
  | error err =>
    refine ⟨fun _ h => ?_, fun _ => .of_eq rfl rfl⟩
    obtain ⟨existing, hex, -⟩ := h.2
    cases hex
  | ok existing =>
    have hex : Dict.get s.node.storage.checkpoints p.roundReceived = existing := by
      unfold DAGStorage.getCheckpoint at hget
      split at hget
      · exact Except.ok.inj hget
      · cases hget
    dsimp only
    by_cases hmis : p.mismatches existing = true
    · rw [if_pos hmis]
      refine ⟨fun _ h => ?_, fun _ => .of_eq rfl rfl⟩
      obtain ⟨existing', hex', hmis', -⟩ := h.2
      obtain rfl := Except.ok.inj hex'
      exact hmis' hmis
    · rw [if_neg hmis]
      cases hbound : p.bound with
      | none =>
        -- nothing is written, so the count must stand still
        dsimp only
        by_cases hconf : p.confirms existing s.node.membershipNodeIds = true
        · refine ⟨fun h => ?_, fun h => absurd ⟨rfl, existing, rfl, hmis, hconf⟩ h⟩
          have hcount := h.count
          rw [newlyConfirmed_of_eq rfl, if_pos hconf] at hcount
          simp at hcount
        · refine ⟨fun _ h => ?_, fun _ => .of_eq rfl ?_⟩
          · obtain ⟨existing', hex', -, hconf'⟩ := h.2
            obtain rfl := Except.ok.inj hex'
            exact hconf hconf'
          · rw [if_neg hconf]
            rfl
      | some q =>
        dsimp only
        refine ⟨fun _ h => absurd h.1 (Option.some_ne_none q), fun _ => ?_⟩
        obtain rfl := WireProposal.bound_eq_some.1 hbound
        have hroot : ∀ row, existing = some row → row.merkleRoot = q.merkleRoot := by
          intro row hrow
          subst hrow
          simpa [WireProposal.mismatches, CheckpointProposal.wire] using hmis
        exact upsert_forward s now hex hroot

/-! ## Runs -/

inductive ProcessAction where
  | propose (targetRound : Int) (now : Flt)
  | ingest (payload : WirePayload) (now : Flt)
  | reconfigure (registry : Registry)
  | emit (cls : EventClass) (payload : Json) (ts now : Flt) (pick : Nat)
  | retain (now : Flt)

namespace Process

/-- One operation, run to its end. -/
def step (s : Process) : ProcessAction → Process
  | .propose targetRound now => (s.proposeLocalCheckpoint targetRound now).1
  | .ingest payload now => (s.ingestCheckpointProposal payload now).1
  | .reconfigure registry => { s with node := (s.node.reconfigureConsensusMembership registry).node }
  | .emit cls payload ts now pick => { s with node := (s.node.emitEvent cls payload ts now pick).node }
  | .retain now => { s with node := (s.node.runRetentionOnce now).node }

/-- An accepted proposal does not count a confirmation that it cannot write. -/
def Writes (s : Process) : ProcessAction → Prop
  | .ingest payload _ => ∀ p, checkedProposal s.node.config.hmacKey payload = .ok p →
      ¬ s.CountsUnwritten p
  | _ => True

theorem proposeLocalCheckpoint_forward (s : Process) (targetRound : Int) (now : Flt) :
    Forward s (s.proposeLocalCheckpoint targetRound now).1 := by
  -- its texts are digests, which can be bound
  have hrec : Forward s (s.recordProposalSignature (s.node.localProposal targetRound).wire now).1 := by
    rw [recordProposalSignature_forward]
    intro h
    have hbound := h.1
    rw [WireProposal.bound_eq_some.2 rfl] at hbound
    cases hbound
  unfold proposeLocalCheckpoint
  dsimp only
  split
  · exact .of_eq rfl rfl
  · split
    · exact .of_eq rfl rfl
    · split
      · exact .of_eq rfl rfl
      · split
        · rename_i s' err hs; rw [hs] at hrec; exact hrec
        · rename_i s' row hs; rw [hs] at hrec; exact hrec

theorem step_forward (s : Process) (a : ProcessAction) : s.Writes a ↔ Forward s (s.step a) := by
  cases a with
  | propose targetRound now => exact ⟨fun _ => proposeLocalCheckpoint_forward s targetRound now, fun _ => trivial⟩
  | ingest payload now =>
    unfold Writes step ingestCheckpointProposal
    dsimp only
    cases checkedProposal s.node.config.hmacKey payload with
    | error err => exact ⟨fun _ => .of_eq rfl rfl, fun _ _ h => nomatch h⟩
    | ok p =>
      dsimp only
      rw [recordProposalSignature_forward]
      exact ⟨fun h => h p rfl, fun h q hq => Except.ok.inj hq ▸ h⟩
  | reconfigure registry =>
    exact ⟨fun _ => .of_eq (Node.reconfigureConsensusMembership_checkpoints s.node registry) rfl,
      fun _ => trivial⟩
  | emit cls payload ts now pick =>
    exact ⟨fun _ => .of_eq (Node.emitEvent_same s.node cls payload ts now pick).checkpoints rfl,
      fun _ => trivial⟩
  | retain now =>
    exact ⟨fun _ => .of_eq (Node.runRetentionOnce_same s.node now).checkpoints rfl, fun _ => trivial⟩

/-- Whatever comes, the rows are kept. -/
theorem rows_kept (s : Process) (a : ProcessAction) :
    RowsKept s.node.storage (s.step a).node.storage := by
  by_cases hw : s.Writes a
  · exact ((step_forward s a).1 hw).rows
  · cases a with
    | ingest payload now =>
      -- the call that counts in vain has not touched the table
      simp only [Writes, not_forall, not_not] at hw
      obtain ⟨p, hp, hcounts⟩ := hw
      simp only [step, ingestCheckpointProposal, hp]
      exact .of_eq (by rw [recordProposalSignature_unwritten hcounts.1])
    | propose targetRound now => exact absurd trivial hw
    | reconfigure registry => exact absurd trivial hw
    | emit cls payload ts now pick => exact absurd trivial hw
    | retain now => exact absurd trivial hw

/-- **Checkpoint rows only move forward.** Along every run no row loses its
root, a signer or its confirmation; and every step confirms rows by two
thirds of the active members and counts what it confirms, if and only if no
accepted proposal counts a confirmation that it cannot write. -/
theorem checkpoints_move_forward (s : Process) (actions : List ProcessAction) :
    (∀ pre pre', pre <+: pre' → pre' <+: actions →
      RowsKept (run step s pre).node.storage (run step s pre').node.storage) ∧
    (Admits step Writes s actions ↔
      ∀ pre a, pre ++ [a] <+: actions → Forward (run step s pre) (run step s (pre ++ [a]))) := by
  constructor
  · intro pre pre' hle hpre'
    refine run_related (R := fun (s s' : Process) => RowsKept s.node.storage s'.node.storage)
      (fun s => .of_eq rfl) (fun h h' => RowsKept.trans h h') ?_ hle hpre'
    exact admits_of_forall fun a _ s => rows_kept s a
  · rw [admits_iff_steps]
    constructor
    · intro h pre a hpre
      rw [run_concat]
      exact (step_forward _ a).1 (h pre a hpre)
    · intro h pre a hpre
      have hf := h pre a hpre
      rw [run_concat] at hf
      exact (step_forward _ a).2 hf

/-- A cluster of one node. -/
def alone : Process where
  node := { config := { nodeId := "n1" }, membership := ⟨[⟨"n1", "self:n1", "node", true⟩], ""⟩ }

/-- An unsigned proposal of `n1` whose root is the text `"\ud800"`. -/
def loneSurrogate : WirePayload where
  roundReceived := some (.ok 0)
  merkleRoot := some (.ok (.lone "\\ud800".toList))
  membersSnapshotHash := some (.ok (.plain ""))
  proposerNodeId := some (.ok "n1")
  signature := none

/-- The count is one, and there is no row. -/
theorem count_without_row :
    (run step alone [.ingest loneSurrogate (.fin 1)]).checkpointConfirmedCount = 1 ∧
    (run step alone [.ingest loneSurrogate (.fin 1)]).node.storage.checkpoints = [] ∧
    ¬ Forward alone (run step alone [.ingest loneSurrogate (.fin 1)]) := by
  have hcount : (run step alone [.ingest loneSurrogate (.fin 1)]).checkpointConfirmedCount = 1 := by
    decide +kernel
  have hrows : (run step alone [.ingest loneSurrogate (.fin 1)]).node.storage.checkpoints = [] := by
    decide +kernel
  refine ⟨hcount, hrows, fun h => ?_⟩
  have hc := h.count
  rw [newlyConfirmed_of_eq hrows, hcount] at hc
  exact absurd hc (by decide)

end Process
end Mdrj.L4
