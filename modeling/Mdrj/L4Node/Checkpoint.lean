import Mdrj.L4Node.Node

/-!
# Checkpoints

A checkpoint fixes the events up to a received round by the digest of their
leaves, signed with the cluster's key. A node proposes one, records the
signatures of proposals that carry the root of its row, and confirms the row
when two thirds of the members have signed.

A payload is given by the entries `from_dict` reads: each is missing or a
value, known by what `int` or `str` makes of it. The signatures of a row are
a map; the order of its entries shows nowhere. A call reads the clock once.
-/
namespace Mdrj.L4
open Mdrj.Core Mdrj.L1 Mdrj.L2 Mdrj.L3

/-! ## Proposals -/

/-- mirrors mdrj/checkpoint.py:30-36 -/
structure CheckpointProposal where
  roundReceived : Int
  merkleRoot : String
  membersSnapshotHash : String
  proposerNodeId : String
  signature : String := ""
  deriving DecidableEq, Repr

/-- The entries of a payload that `from_dict` reads. -/
structure Payload where
  roundReceived : Option (Except PyError Int)
  merkleRoot : Option (Except PyError String)
  membersSnapshotHash : Option (Except PyError String)
  proposerNodeId : Option (Except PyError String)
  signature : Option (Except PyError String)

/-- `data[key]` under a conversion. -/
def Payload.required {α : Type} (key : String) : Option (Except PyError α) → Except PyError α
  | some value => value
  | none => .error (.keyError key)

/-- `data.get(key, "")` under `str`. -/
def Payload.optional : Option (Except PyError String) → Except PyError String
  | some value => value
  | none => .ok ""

namespace CheckpointProposal

/-- mirrors mdrj/checkpoint.py:38-43 -/
def canonicalBody (p : CheckpointProposal) : Json :=
  .obj [("round_received", .int p.roundReceived), ("merkle_root", .str p.merkleRoot),
    ("members_snapshot_hash", .str p.membersSnapshotHash)]

/-- mirrors mdrj/checkpoint.py:45-50 -/
def toDict (p : CheckpointProposal) : Payload where
  roundReceived := some (.ok p.roundReceived)
  merkleRoot := some (.ok p.merkleRoot)
  membersSnapshotHash := some (.ok p.membersSnapshotHash)
  proposerNodeId := some (.ok p.proposerNodeId)
  signature := some (.ok p.signature)

/-- mirrors mdrj/checkpoint.py:52-60 -/
def fromDict (data : Payload) : Except PyError CheckpointProposal := do
  let roundReceived ← Payload.required "round_received" data.roundReceived
  let merkleRoot ← Payload.required "merkle_root" data.merkleRoot
  let membersSnapshotHash ← Payload.required "members_snapshot_hash" data.membersSnapshotHash
  let proposerNodeId ← Payload.optional data.proposerNodeId
  let signature ← Payload.optional data.signature
  return ⟨roundReceived, merkleRoot, membersSnapshotHash, proposerNodeId, signature⟩

/-- What is broadcast is read back. -/
theorem fromDict_toDict (p : CheckpointProposal) : fromDict p.toDict = .ok p := rfl

end CheckpointProposal

/-! ## The root -/

/-- mirrors mdrj/checkpoint.py:64-72 -/
def leafBody (event : Event) : Json := .obj [
  ("id", .str event.id),
  ("cls", .str event.cls.value),
  ("creator", .str event.creator),
  ("parents", .arr (event.parents.map .str)),
  ("consensus_ts", event.consensusTs.elim .null .float),
  ("round_received", event.roundReceived.elim .null .int),
  ("payload_hash", .str (Sha256.hexdigest (canonicalJson event.payload)))]

/-- mirrors mdrj/checkpoint.py:63-73 -/
def eventLeafHash (event : Event) : String := Sha256.hexdigest (canonicalJson (leafBody event))

/-- The order of the leaves: by received round, then by id. -/
def leafLe (a b : Event) : Prop :=
  a.roundReceived.getD (-1) < b.roundReceived.getD (-1) ∨
    a.roundReceived.getD (-1) = b.roundReceived.getD (-1) ∧ a.id ≤ b.id

instance : DecidableRel leafLe := fun _ _ => inferInstanceAs (Decidable (_ ∨ _ ∧ _))

/-- The hashed text: the leaves in order. -/
def merkleText (events : List Event) : String :=
  String.join ((events.insertionSort leafLe).map eventLeafHash)

/-- mirrors mdrj/checkpoint.py:76-97 -/
def computeMerkleRoot (events : List Event) : String := Sha256.hexdigest (merkleText events)

/-- The root of a single event on bytes. -/
theorem computeMerkleRoot_singleton (e : Event) : computeMerkleRoot [e] =
    Sha256.hex (Sha256.digest (Sha256.encodeChars (Sha256.hexChars (Sha256.digest
      (Sha256.encodeChars (canonicalChars (leafBody e))))))) := by
  have htext : merkleText [e] = eventLeafHash e := by
    simp [merkleText, String.join]
  unfold computeMerkleRoot Sha256.hexdigest
  rw [htext]
  unfold eventLeafHash Sha256.hexdigest canonicalJson Sha256.hex
  rw [Sha256.encode_ofList, Sha256.encode_ofList]

/-! ## Signatures -/

/-- mirrors mdrj/checkpoint.py:100-102 -/
def signProposal (p : CheckpointProposal) (hmacKey : String) : String :=
  Sha256.hmac (Sha256.encode hmacKey) (Sha256.encode (canonicalJson p.canonicalBody))

/-- `compare_digest` refuses texts that are not ASCII.
mirrors mdrj/checkpoint.py:105-109 -/
def verifyProposalSignature (p : CheckpointProposal) (signature hmacKey : String) :
    Except PyError Bool :=
  if signature.toList.all (·.toNat < 128) then .ok (signProposal p hmacKey = signature)
  else .error .typeError

theorem signProposal_ascii (p : CheckpointProposal) (hmacKey : String) :
    (signProposal p hmacKey).toList.all (·.toNat < 128) = true := by
  unfold signProposal Sha256.hmac Sha256.hex
  rw [String.toList_ofList, List.all_eq_true]
  intro c hc
  exact decide_eq_true (Sha256.hexChars_digest_ascii hc)

theorem verify_signProposal (p : CheckpointProposal) (hmacKey : String) :
    verifyProposalSignature p (signProposal p hmacKey) hmacKey = .ok true := by
  unfold verifyProposalSignature
  rw [if_pos (signProposal_ascii p hmacKey), decide_eq_true rfl]

/-- mirrors mdrj/checkpoint.py:112-119 -/
def isQuorumReached (signatures : Dict String String) (members : List String) : Bool :=
  let memberSet := (members.filter (· ≠ "")).toFinset
  if memberSet = ∅ then false
  else
    let signed := (memberSet.filter fun m => m ∈ Dict.keys signatures).card
    let threshold := (2 * memberSet.card + 2) / 3
    decide (threshold ≤ signed)

def Membership.nodeIds (membership : Membership) : List String :=
  membership.members.filterMap fun m => if m.nodeId = "" then none else some (strip m.nodeId)

namespace Node

/-! ## The operations -/

/-- mirrors mdrj/node.py:1790-1792 -/
def eventsUpToRoundReceived (n : Node) (targetRound : Int) : List Event :=
  n.storage.allEvents.filter fun event => match event.roundReceived with
    | none => false
    | some rr => rr ≤ targetRound

/-- mirrors mdrj/node.py:1794-1796 -/
def membershipNodeIds (n : Node) : List String := n.membership.nodeIds

/-- The row after one more signature.
mirrors mdrj/node.py:1842-1862 -/
def signedRow (existing : Option CheckpointRow) (proposal : CheckpointProposal)
    (members : List String) (now : Flt) : CheckpointRow :=
  let signatures := Dict.set ((existing.map CheckpointRow.signatures).getD [])
    proposal.proposerNodeId proposal.signature
  let quorum := isQuorumReached signatures members
  { merkleRoot := proposal.merkleRoot
    membersSnapshotHash := proposal.membersSnapshotHash
    signatures := signatures
    status := if quorum then .confirmed
      else if existing.map CheckpointRow.status = some .confirmed then .confirmed else .pending
    confirmedAt := if quorum then some now
      else (existing.bind CheckpointRow.confirmedAt).filter (· ≠ .fin 0)
    createdAt := now }

/-- A proposal with another root than the row's is ignored.
mirrors mdrj/node.py:1828-1863 -/
def recordProposalSignature (n : Node) (proposal : CheckpointProposal) (now : Flt) :
    Call (Option CheckpointRow) :=
  match n.storage.getCheckpoint proposal.roundReceived with
  | .error err => ⟨n, .error err⟩
  | .ok existing =>
    if existing.any (·.merkleRoot ≠ proposal.merkleRoot) then ⟨n, .ok existing⟩
    else
      let row := signedRow existing proposal n.membershipNodeIds now
      let n := { n with storage := n.storage.upsertCheckpoint proposal.roundReceived row }
      ⟨n, n.storage.getCheckpoint proposal.roundReceived⟩

/-- The proposal of a node for a round, signed.
mirrors mdrj/node.py:1813-1823 -/
def localProposal (n : Node) (targetRound : Int) : CheckpointProposal :=
  let unsigned : CheckpointProposal :=
    { roundReceived := targetRound
      merkleRoot := computeMerkleRoot (n.eventsUpToRoundReceived targetRound)
      membersSnapshotHash := n.membership.snapshotHash
      proposerNodeId := n.config.nodeId }
  { unsigned with signature := signProposal unsigned n.config.hmacKey }

/-- The proposal is returned for broadcast also when the row ignored it.
mirrors mdrj/node.py:1802-1826 -/
def proposeLocalCheckpoint (n : Node) (targetRound : Int) (now : Flt) : Call CheckpointProposal :=
  if targetRound < 0 then ⟨n, .error (.valueError "target_round must be non-negative")⟩
  else if n.config.hmacKey = "" then
    ⟨n, .error (.valueError "security.hmac_key must be set to propose checkpoints")⟩
  else if (n.eventsUpToRoundReceived targetRound).isEmpty then
    ⟨n, .error (.valueError ("no events with round_received <= " ++ toString targetRound))⟩
  else
    let proposal := n.localProposal targetRound
    match n.recordProposalSignature proposal now with
    | ⟨n, .error err⟩ => ⟨n, .error err⟩
    | ⟨n, .ok _⟩ => ⟨n, .ok proposal⟩

/-- mirrors mdrj/node.py:1865-1876 -/
def ingestCheckpointProposal (n : Node) (payload : Payload) (now : Flt) :
    Call (Option CheckpointRow) :=
  match CheckpointProposal.fromDict payload with
  | .error err => ⟨n, .error err⟩
  | .ok proposal =>
    -- an empty signature is not checked
    if n.config.hmacKey ≠ "" ∧ proposal.signature ≠ "" then
      match verifyProposalSignature proposal proposal.signature n.config.hmacKey with
      | .error err => ⟨n, .error err⟩
      | .ok false => ⟨n, .error (.valueError "invalid checkpoint signature")⟩
      | .ok true => n.recordProposalSignature proposal now
    else n.recordProposalSignature proposal now

/-- mirrors mdrj/checkpoint.py:122-130 -/
structure CheckpointVerificationReport where
  matchesMerkle : Bool
  localMerkleRoot : String
  confirmedMerkleRoot : String
  checkpointRound : Int
  hasTamperEvidence : Bool
  notes : List String

/-- mirrors mdrj/node.py:1937-1962 without the metric -/
def verifyCheckpoint (n : Node) (roundReceived : Int) :
    Except PyError CheckpointVerificationReport :=
  match n.storage.getCheckpoint roundReceived with
  | .error err => .error err
  | .ok none => .error (.keyError ("no checkpoint at round_received=" ++ toString roundReceived))
  | .ok (some checkpoint) =>
    let events := n.eventsUpToRoundReceived roundReceived
    let localMerkle := if events.isEmpty then "" else computeMerkleRoot events
    let isMatch := decide (localMerkle ≠ "" ∧ localMerkle = checkpoint.merkleRoot)
    .ok {
      matchesMerkle := isMatch
      localMerkleRoot := localMerkle
      confirmedMerkleRoot := checkpoint.merkleRoot
      checkpointRound := roundReceived
      hasTamperEvidence := !isMatch && decide (checkpoint.status = .confirmed)
      notes :=
        (if checkpoint.status = .confirmed then [] else ["checkpoint is not yet confirmed"]) ++
        (if events.isEmpty then ["no local events at or before target round"] else []) }

/-! ## What the operations do to the node -/

section Spec
variable {n n' : Node} {now : Flt}

theorem recordProposalSignature_frame (n : Node) (p : CheckpointProposal) (now : Flt) :
    (n.recordProposalSignature p now).node.config = n.config ∧
      (n.recordProposalSignature p now).node.membership = n.membership := by
  unfold recordProposalSignature
  split
  · exact ⟨rfl, rfl⟩
  · split <;> exact ⟨rfl, rfl⟩

/-- Recording raises only before it writes. -/
theorem recordProposalSignature_error {p : CheckpointProposal} {err : PyError}
    (h : n.recordProposalSignature p now = ⟨n', .error err⟩) : n' = n := by
  unfold recordProposalSignature DAGStorage.getCheckpoint at h
  by_cases hfit : fitsInt64 p.roundReceived = true
  · simp only [hfit, if_true] at h
    split at h <;> cases h
  · simp only [hfit] at h
    cases h
    rfl

/-- A proposal that is returned is the node's own, has the root of the
events it covers and has been offered to the node's row. -/
theorem proposeLocalCheckpoint_ok {targetRound : Int} {p : CheckpointProposal}
    (h : n.proposeLocalCheckpoint targetRound now = ⟨n', .ok p⟩) :
    p.proposerNodeId = n.config.nodeId ∧ p.roundReceived = targetRound ∧
      p.merkleRoot = computeMerkleRoot (n.eventsUpToRoundReceived targetRound) ∧
      n' = (n.recordProposalSignature p now).node := by
  unfold proposeLocalCheckpoint at h
  dsimp only at h
  split at h
  · cases h
  · split at h
    · cases h
    · split at h
      · cases h
      · split at h
        · cases h
        · rename_i n'' row hrec
          cases h
          refine ⟨rfl, rfl, rfl, ?_⟩
          rw [hrec]

theorem proposeLocalCheckpoint_error {targetRound : Int} {err : PyError}
    (h : n.proposeLocalCheckpoint targetRound now = ⟨n', .error err⟩) : n' = n := by
  unfold proposeLocalCheckpoint at h
  dsimp only at h
  split at h
  · cases h; rfl
  · split at h
    · cases h; rfl
    · split at h
      · cases h; rfl
      · split at h
        · rename_i n'' err' hrec
          cases h
          exact recordProposalSignature_error hrec
        · cases h

theorem recordProposalSignature_signed (now : Flt) {p : CheckpointProposal}
    (hfit : fitsInt64 p.roundReceived = true)
    (hroot : ∀ row, Dict.get n.storage.checkpoints p.roundReceived = some row →
      row.merkleRoot = p.merkleRoot) :
    ∃ row, n.recordProposalSignature p now =
      ⟨{ n with storage := n.storage.upsertCheckpoint p.roundReceived (signedRow
        (Dict.get n.storage.checkpoints p.roundReceived) p n.membershipNodeIds now) }, .ok row⟩ := by
  unfold recordProposalSignature DAGStorage.getCheckpoint
  have hany : (Dict.get n.storage.checkpoints p.roundReceived).any
      (·.merkleRoot ≠ p.merkleRoot) = false := by
    rw [Option.any_eq_false_iff_get]
    intro h
    simp [hroot _ (Option.some_get h).symm]
  simp only [hfit, if_true, hany]
  exact ⟨_, rfl⟩

theorem proposeLocalCheckpoint_eq {targetRound : Int} (h0 : 0 ≤ targetRound)
    (hfit : fitsInt64 targetRound = true) (hkey : n.config.hmacKey ≠ "")
    (hev : n.eventsUpToRoundReceived targetRound ≠ []) :
    n.proposeLocalCheckpoint targetRound now =
      ⟨(n.recordProposalSignature (n.localProposal targetRound) now).node,
        .ok (n.localProposal targetRound)⟩ := by
  unfold proposeLocalCheckpoint
  rw [if_neg (by omega), if_neg hkey, if_neg (by simpa using hev)]
  dsimp only
  split
  · rename_i n' err hrec
    unfold recordProposalSignature DAGStorage.getCheckpoint at hrec
    have hfit' : fitsInt64 (n.localProposal targetRound).roundReceived = true := hfit
    simp only [hfit', if_true] at hrec
    split at hrec <;> cases hrec
  · rename_i n' row hrec
    rw [hrec]

/-- An honest proposal passes the check. -/
theorem ingestCheckpointProposal_honest {p : CheckpointProposal}
    (hsig : p.signature = signProposal p n.config.hmacKey) :
    n.ingestCheckpointProposal p.toDict now = n.recordProposalSignature p now := by
  unfold ingestCheckpointProposal
  rw [CheckpointProposal.fromDict_toDict]
  dsimp only
  split
  · rw [hsig, verify_signProposal]
  · rfl

/-- A delivery leaves the node alone or records the proposal it parses. -/
theorem ingestCheckpointProposal_node (n : Node) (payload : Payload) (now : Flt) :
    (n.ingestCheckpointProposal payload now).node = n ∨
      ∃ p, CheckpointProposal.fromDict payload = .ok p ∧
        (n.ingestCheckpointProposal payload now).node = (n.recordProposalSignature p now).node := by
  unfold ingestCheckpointProposal
  split
  · exact .inl rfl
  · rename_i p hp
    split
    · split
      · exact .inl rfl
      · exact .inl rfl
      · exact .inr ⟨p, hp, rfl⟩
    · exact .inr ⟨p, hp, rfl⟩

end Spec
end Node
end Mdrj.L4
