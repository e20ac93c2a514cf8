import Mdrj.L5Cluster.Agreement

/-!
# Automatic checkpoints

A pass of `_checkpoint_propose_loop` proposes the newest received round less a
margin and sends the proposal to every peer, once. A proposal, own or received,
is recorded in a worker thread, in two storage calls: it reads the row of its
round, and later writes it back with one more signature. In between, other
recordings may do the same. `Agreement` is about safety in any run; this is
what the passes achieve where the nodes agree on the roots, as nodes with the
same events do.

Results:
* `read_write`, `pass_write`, `deliver_write`: without another call in between,
  a recording is the call of `Checkpoint`.
* `checkpoint_confirms_exactly`: in every run of passes, deliveries and writes,
  in any order, with losses and repetitions, a node has a row for a round once
  a recording has ended; the row has the common root, signatures of recorded
  proposals only, and is confirmed if and only if two thirds of the members are
  among its signers. Where every write meets the row that its recording has
  read, the row has the signatures of all of them: as soon as two thirds of the
  members have proposed the round and each of their proposals is recorded, the
  round is confirmed. Overlapping recordings may lose signatures (`Interleaving`).
-/
namespace Mdrj.L5
open Mdrj.Core Mdrj.L1 Mdrj.L3 Mdrj.L4

/-! ## A pass -/

/-- The round a pass proposes; `none` when it proposes nothing.
mirrors mdrj/node.py:1509-1517 -/
def autoTarget (n : Node) (margin : Nat) : Option Int :=
  if n.config.hmacKey = "" then none
  else match (n.storage.allEvents.filterMap Event.roundReceived).max? with
    | none => none
    | some newest => if newest - margin < 0 then none else some (newest - margin)

/-- What `propose_local_checkpoint` raises before it records is logged. Of its
checks only the one for events is left: the target is not negative, and there
is a key.
mirrors mdrj/node.py:1507-1526 and 1802-1823 -/
def passProposal (n : Node) (margin : Nat) : Option CheckpointProposal :=
  match autoTarget n margin with
  | none => none
  | some targetRound =>
    if (n.eventsUpToRoundReceived targetRound).isEmpty then none else some (n.localProposal targetRound)

/-- An empty signature is not checked.
mirrors mdrj/node.py:1868-1871 -/
def passesCheck (n : Node) (p : CheckpointProposal) : Bool :=
  if n.config.hmacKey ≠ "" ∧ p.signature ≠ "" then
    match verifyProposalSignature p p.signature n.config.hmacKey with
    | .error _ => false
    | .ok valid => valid
  else true

/-! ## Recordings -/

/-- A recording between its read and its write; an own proposal is broadcast
when it has ended. -/
structure Recording where
  proposal : CheckpointProposal
  existing : Option CheckpointRow
  own : Bool

/-- A node with its recordings. -/
structure Recorder where
  node : Node
  underWay : List Recording := []
  /-- ghost: the proposals whose recording has ended -/
  recorded : List CheckpointProposal := []

/-- Each call comes with what it broadcasts. -/
abbrev Recorder.Result := Recorder × List CheckpointProposal

namespace Recorder

def finish (s : Recorder) (p : CheckpointProposal) (own : Bool) : Result :=
  ({ s with recorded := s.recorded ++ [p] }, if own then [p] else [])

/-- A round that SQLite cannot hold raises, and a row with another root ends
the recording.
mirrors mdrj/node.py:1828-1840 -/
def read (s : Recorder) (p : CheckpointProposal) (own : Bool) : Result :=
  match s.node.storage.getCheckpoint p.roundReceived with
  | .error _ => (s, [])
  | .ok existing =>
    if existing.any (·.merkleRoot ≠ p.merkleRoot) then s.finish p own
    else ({ s with underWay := s.underWay ++ [⟨p, existing, own⟩] }, [])

/-- The write of the `k`-th recording under way.
mirrors mdrj/node.py:1842-1862 -/
def write (s : Recorder) (k : Nat) (now : Flt) : Result :=
  match s.underWay[k]? with
  | none => (s, [])
  | some r =>
    let row := Node.signedRow r.existing r.proposal s.node.membershipNodeIds now
    let storage := s.node.storage.upsertCheckpoint r.proposal.roundReceived row
    { s with
      node := { s.node with storage := storage }
      underWay := s.underWay.eraseIdx k }.finish r.proposal r.own

/-- A pass up to its read. -/
def pass (s : Recorder) (margin : Nat) : Result :=
  match passProposal s.node margin with
  | none => (s, [])
  | some p => s.read p true

/-- A delivery up to its read. -/
def deliver (s : Recorder) (p : CheckpointProposal) : Result :=
  if passesCheck s.node p then s.read p false else (s, [])

end Recorder

/-- The nodes, and the proposals broadcast so far. -/
structure Exchange (ι : Type) where
  nodes : ι → Recorder
  sent : List CheckpointProposal := []

inductive ExchangeAct (ι : Type) where
  | pass (i : ι) (margin : Nat)
  | deliver (i : ι) (k : Nat)
  | write (i : ι) (k : Nat) (now : Flt)

namespace Exchange
variable {ι : Type} [DecidableEq ι]

def setNode (x : Exchange ι) (i : ι) (result : Recorder.Result) : Exchange ι where
  nodes := Function.update x.nodes i result.1
  sent := x.sent ++ result.2

/-- A broadcast proposal may be delivered to any node, any number of times. -/
def step (x : Exchange ι) : ExchangeAct ι → Exchange ι
  | .pass i margin => x.setNode i ((x.nodes i).pass margin)
  | .deliver i k =>
    match x.sent[k]? with
    | some p => x.setNode i ((x.nodes i).deliver p)
    | none => x
  | .write i k now => x.setNode i ((x.nodes i).write k now)

/-- A write about the round meets the row that its recording has read: no other
recording has written it since. -/
def Serial (i : ι) (round : Int) (x : Exchange ι) : ExchangeAct ι → Prop
  | .write j k _ => j = i → ∀ r, (x.nodes i).underWay[k]? = some r → r.proposal.roundReceived = round →
    r.existing = Dict.get (x.nodes i).node.storage.checkpoints round
  | .pass .. | .deliver .. => True

end Exchange

/-! ## Calls that are not interrupted -/

section Uninterrupted
variable {s : Recorder} (h : s.underWay = []) (p : CheckpointProposal) (now : Flt)
include h

theorem read_write (own : Bool) :
    ((s.read p own).1.write 0 now).1.node = (s.node.recordProposalSignature p now).node := by
  unfold Recorder.read Node.recordProposalSignature
  cases s.node.storage.getCheckpoint p.roundReceived with
  | error err =>
    unfold Recorder.write
    rw [h]
    rfl
  | ok existing =>
    dsimp only
    split
    · unfold Recorder.finish Recorder.write
      dsimp only
      rw [h]
      rfl
    · unfold Recorder.write
      dsimp only
      rw [h]
      rfl

theorem pass_write {margin : Nat} {targetRound : Int} (htarget : autoTarget s.node margin = some targetRound) :
    ((s.pass margin).1.write 0 now).1.node = (s.node.proposeLocalCheckpoint targetRound now).node := by
  have hkey : s.node.config.hmacKey ≠ "" := by
    intro hkey
    unfold autoTarget at htarget
    rw [if_pos hkey] at htarget
    cases htarget
  have hnonneg : ¬ targetRound < 0 := by
    unfold autoTarget at htarget
    rw [if_neg hkey] at htarget
    split at htarget
    · cases htarget
    · split at htarget
      · cases htarget
      · rename_i newest _ hnonneg
        obtain rfl := Option.some.inj htarget
        exact hnonneg
  unfold Recorder.pass passProposal Node.proposeLocalCheckpoint
  rw [htarget, if_neg hnonneg, if_neg hkey]
  dsimp only
  by_cases hevents : (s.node.eventsUpToRoundReceived targetRound).isEmpty = true
  · rw [if_pos hevents, if_pos hevents]
    unfold Recorder.write
    dsimp only
    rw [h]
    rfl
  · rw [if_neg hevents, if_neg hevents]
    dsimp only
    rw [read_write h]
    cases s.node.recordProposalSignature (s.node.localProposal targetRound) now with
    | mk n result =>
      cases result with
      | error err => rfl
      | ok row => rfl

theorem deliver_write :
    ((s.deliver p).1.write 0 now).1.node = (s.node.ingestCheckpointProposal p.toDict now).node := by
  have hidle : (s.write 0 now).1.node = s.node := by
    unfold Recorder.write
    rw [h]
    rfl
  unfold Recorder.deliver passesCheck Node.ingestCheckpointProposal
  rw [CheckpointProposal.fromDict_toDict]
  dsimp only
  split
  · cases verifyProposalSignature p p.signature s.node.config.hmacKey with
    | error err => exact hidle
    | ok valid =>
      cases valid with
      | false => exact hidle
      | true => exact read_write h p now false
  · exact read_write h p now false

end Uninterrupted

/-! ## One row -/

/-- The proposals for one round. -/
def forRound (r : Int) (proposals : List CheckpointProposal) : List CheckpointProposal :=
  proposals.filter fun p => p.roundReceived = r

/-- The members among the proposers. -/
def memberProposers (members : List String) (proposals : List CheckpointProposal) : Finset String :=
  (memberSet members).filter fun m => m ∈ proposals.map CheckpointProposal.proposerNodeId

/-- Two thirds of the members, rounded up, and one at least. -/
def TwoThirds (members : List String) (proposals : List CheckpointProposal) : Prop :=
  memberSet members ≠ ∅ ∧ (2 * (memberSet members).card + 2) / 3 ≤ (memberProposers members proposals).card

/-- What a row holds after these proposals for its round were recorded, in
whatever way: signers may be missing. -/
structure SoundRow (members : List String) (root : String) (proposals : List CheckpointProposal)
    (row : CheckpointRow) : Prop where
  root : row.merkleRoot = root
  signers : ∀ m ∈ Dict.keys row.signatures, m ∈ proposals.map CheckpointProposal.proposerNodeId
  confirmed : row.status = .confirmed ↔ isQuorumReached row.signatures members = true

/-- All of them have signed. -/
structure RowOf (members : List String) (root : String) (proposals : List CheckpointProposal)
    (row : CheckpointRow) : Prop where
  root : row.merkleRoot = root
  signers : ∀ m, m ∈ Dict.keys row.signatures ↔ m ∈ proposals.map CheckpointProposal.proposerNodeId
  confirmed : row.status = .confirmed ↔ TwoThirds members proposals

section Row
variable {members : List String} {root : String} {proposals : List CheckpointProposal} {p : CheckpointProposal}

theorem twoThirds_iff {signatures : Dict String String}
    (h : ∀ m, m ∈ Dict.keys signatures ↔ m ∈ proposals.map CheckpointProposal.proposerNodeId) :
    isQuorumReached signatures members = true ↔ TwoThirds members proposals := by
  have hsigners : memberSigners signatures members = memberProposers members proposals := by
    unfold memberSigners memberProposers
    exact Finset.filter_congr fun m _ => h m
  rw [isQuorumReached_iff, hsigners]
  rfl

theorem SoundRow.rowOf {row : CheckpointRow} (h : SoundRow members root proposals row)
    (hall : ∀ p ∈ proposals, p.proposerNodeId ∈ Dict.keys row.signatures) : RowOf members root proposals row := by
  have hsigners : ∀ m, m ∈ Dict.keys row.signatures ↔ m ∈ proposals.map CheckpointProposal.proposerNodeId := by
    refine fun m => ⟨h.signers m, fun hm => ?_⟩
    obtain ⟨p, hp, rfl⟩ := List.mem_map.1 hm
    exact hall p hp
  exact ⟨h.root, hsigners, h.confirmed.trans (twoThirds_iff hsigners)⟩

theorem SoundRow.concat {row : CheckpointRow} (h : SoundRow members root proposals row) (p : CheckpointProposal) :
    SoundRow members root (proposals ++ [p]) row := by
  refine ⟨h.root, fun m hm => ?_, h.confirmed⟩
  rw [List.map_append]
  exact List.mem_append_left _ (h.signers m hm)

theorem mem_signedRow (members : List String) (existing : Option CheckpointRow) (p : CheckpointProposal) (now : Flt)
    (m : String) :
    m ∈ Dict.keys (Node.signedRow existing p members now).signatures ↔
      m = p.proposerNodeId ∨ ∃ row, existing = some row ∧ m ∈ Dict.keys row.signatures := by
  unfold Node.signedRow
  dsimp only
  rw [Dict.mem_keys_set]
  cases existing with
  | none => simp [Dict.keys]
  | some row => simp

/-- A write of a row that was read sound leaves a sound row. -/
theorem soundRow_signedRow {existing : Option CheckpointRow}
    (h : ∀ row, existing = some row → SoundRow members root proposals row) (hroot : p.merkleRoot = root)
    (now createdAt : Flt) :
    SoundRow members root (proposals ++ [p])
      { Node.signedRow existing p members now with createdAt := createdAt } := by
  refine ⟨hroot, fun m hm => ?_, ?_⟩
  · rw [List.map_append]
    rcases (mem_signedRow members existing p now m).1 hm with rfl | ⟨row, hex, hold⟩
    · exact List.mem_append_right _ (List.mem_singleton.2 rfl)
    · exact List.mem_append_left _ ((h row hex).signers m hold)
  · change (if isQuorumReached (Node.signedRow existing p members now).signatures members = true then
        CheckpointStatus.confirmed else
      if existing.map CheckpointRow.status = some .confirmed then .confirmed else .pending) = .confirmed ↔
        isQuorumReached (Node.signedRow existing p members now).signatures members = true
    by_cases hq : isQuorumReached (Node.signedRow existing p members now).signatures members = true
    · simp [hq]
    · -- the row that was read is not confirmed, since a quorum stays one
      have hpending : existing.map CheckpointRow.status ≠ some .confirmed := by
        intro hconfirmed
        obtain ⟨row, hex, hstatus⟩ := Option.map_eq_some_iff.1 hconfirmed
        refine hq (isQuorumReached_mono (fun m hm => ?_) ((h row hex).confirmed.1 hstatus))
        exact (mem_signedRow members existing p now m).2 (.inr ⟨row, hex, hm⟩)
      simp [hq, hpending]

theorem forRound_concat (r : Int) (proposals : List CheckpointProposal) (p : CheckpointProposal) :
    forRound r (proposals ++ [p]) =
      if p.roundReceived = r then forRound r proposals ++ [p] else forRound r proposals := by
  unfold forRound
  rw [List.filter_append, List.filter_cons]
  by_cases hr : p.roundReceived = r
  · simp [hr]
  · simp [hr]

end Row

/-! ## One node -/

/-- The proposal is one of the cluster's: signed, with the common root. -/
structure Common (hmacKey : String) (root : Int → String) (p : CheckpointProposal) : Prop where
  root : p.merkleRoot = root p.roundReceived
  signature : p.signature = signProposal p hmacKey

/-- The rows, and the rows that recordings have read, are sound. -/
structure RecorderInv (membership : Membership) (hmacKey : String) (root : Int → String) (s : Recorder) : Prop where
  isSome : ∀ r, (Dict.get s.node.storage.checkpoints r).isSome = true ↔ forRound r s.recorded ≠ []
  rows : ∀ r row, Dict.get s.node.storage.checkpoints r = some row →
    SoundRow membership.nodeIds (root r) (forRound r s.recorded) row
  underWay : ∀ r ∈ s.underWay, Common hmacKey root r.proposal ∧ ∀ row, r.existing = some row →
    SoundRow membership.nodeIds (root r.proposal.roundReceived) (forRound r.proposal.roundReceived s.recorded) row
  roots : ∀ r, computeMerkleRoot (s.node.eventsUpToRoundReceived r) = root r
  membership : s.node.membership = membership
  hmacKey : s.node.config.hmacKey = hmacKey

/-- All recorded proposals for the round have signed its row. -/
def Complete (round : Int) (s : Recorder) : Prop :=
  ∀ row, Dict.get s.node.storage.checkpoints round = some row →
    ∀ p ∈ forRound round s.recorded, p.proposerNodeId ∈ Dict.keys row.signatures

section Recorders
variable {membership : Membership} {hmacKey : String} {root : Int → String} {s : Recorder} {p : CheckpointProposal}

/-- The roots are common, so a read begins a recording, -/
theorem RecorderInv.read_fits (h : RecorderInv membership hmacKey root s) (hp : Common hmacKey root p) {own : Bool}
    (hfits : fitsInt64 p.roundReceived = true) : s.read p own = ({ s with
      underWay := s.underWay ++ [⟨p, Dict.get s.node.storage.checkpoints p.roundReceived, own⟩] }, []) := by
  have hsame : ¬ (Dict.get s.node.storage.checkpoints p.roundReceived).any
      (fun row => decide (row.merkleRoot ≠ p.merkleRoot)) = true := by
    intro hany
    obtain ⟨row, hget, hne⟩ := (Option.any_eq_true _ _).1 hany
    exact of_decide_eq_true hne ((h.rows _ row hget).root.trans hp.root.symm)
  unfold Recorder.read DAGStorage.getCheckpoint
  rw [if_pos hfits]
  dsimp only
  rw [if_neg hsame]

/-- if SQLite can hold the round. -/
theorem RecorderInv.read_cases (h : RecorderInv membership hmacKey root s) (hp : Common hmacKey root p) (own : Bool) :
    s.read p own = (s, []) ∨ s.read p own = ({ s with
      underWay := s.underWay ++ [⟨p, Dict.get s.node.storage.checkpoints p.roundReceived, own⟩] }, []) := by
  by_cases hfits : fitsInt64 p.roundReceived = true
  · exact .inr (h.read_fits hp hfits)
  · refine .inl ?_
    unfold Recorder.read DAGStorage.getCheckpoint
    rw [if_neg hfits]

theorem RecorderInv.read (h : RecorderInv membership hmacKey root s) (hp : Common hmacKey root p) (own : Bool) :
    RecorderInv membership hmacKey root (s.read p own).1 ∧ (s.read p own).2 = [] := by
  rcases h.read_cases hp own with heq | heq
  · rw [heq]
    exact ⟨h, rfl⟩
  · rw [heq]
    refine ⟨⟨h.isSome, h.rows, fun r hr => ?_, h.roots, h.membership, h.hmacKey⟩, rfl⟩
    rcases List.mem_append.1 hr with hold | hnew
    · exact h.underWay r hold
    · obtain rfl := List.mem_singleton.1 hnew
      exact ⟨hp, h.rows p.roundReceived⟩

theorem passProposal_common (h : RecorderInv membership hmacKey root s) {margin : Nat}
    (hp : passProposal s.node margin = some p) : Common hmacKey root p := by
  unfold passProposal at hp
  split at hp
  · cases hp
  · split at hp
    · cases hp
    · rename_i targetRound _ _
      obtain rfl := Option.some.inj hp
      refine ⟨h.roots targetRound, ?_⟩
      rw [← h.hmacKey]
      rfl

theorem RecorderInv.pass (h : RecorderInv membership hmacKey root s) (margin : Nat) :
    RecorderInv membership hmacKey root (s.pass margin).1 ∧ (s.pass margin).2 = [] := by
  unfold Recorder.pass
  split
  · exact ⟨h, rfl⟩
  · rename_i p hp
    exact h.read (passProposal_common h hp) true

theorem passesCheck_common (h : RecorderInv membership hmacKey root s) (hp : Common hmacKey root p) :
    passesCheck s.node p = true := by
  unfold passesCheck
  rw [h.hmacKey, hp.signature, verify_signProposal]
  exact ite_self _

theorem RecorderInv.deliver (h : RecorderInv membership hmacKey root s) (hp : Common hmacKey root p) :
    RecorderInv membership hmacKey root (s.deliver p).1 ∧ (s.deliver p).2 = [] := by
  unfold Recorder.deliver
  split
  · exact h.read hp false
  · exact ⟨h, rfl⟩

/-- One more recorded proposal takes no signer out of question. -/
theorem soundRow_recorded {members : List String} {r : Int} {recorded : List CheckpointProposal} {row : CheckpointRow}
    (h : SoundRow members (root r) (forRound r recorded) row) (p : CheckpointProposal) :
    SoundRow members (root r) (forRound r (recorded ++ [p])) row := by
  rw [forRound_concat]
  split
  · exact h.concat p
  · exact h

theorem RecorderInv.write (h : RecorderInv membership hmacKey root s) (k : Nat) (now : Flt) :
    RecorderInv membership hmacKey root (s.write k now).1 ∧ ∀ p ∈ (s.write k now).2, Common hmacKey root p := by
  unfold Recorder.write
  split
  · exact ⟨h, fun p hp => absurd hp List.not_mem_nil⟩
  · rename_i r hr
    obtain ⟨hcommon, hread⟩ := h.underWay r (List.mem_of_getElem? hr)
    have hids : s.node.membershipNodeIds = membership.nodeIds := congrArg Membership.nodeIds h.membership
    refine ⟨⟨fun round => ?_, fun round row hget => ?_, fun r' hr' => ?_, h.roots, h.membership, h.hmacKey⟩, ?_⟩
    · unfold Recorder.finish DAGStorage.upsertCheckpoint
      dsimp only
      rw [Dict.get_set, forRound_concat]
      split
      · simp
      · exact h.isSome round
    · unfold Recorder.finish DAGStorage.upsertCheckpoint at hget
      dsimp only at hget
      rw [Dict.get_set] at hget
      unfold Recorder.finish
      dsimp only
      split at hget
      · rename_i hround
        subst hround
        obtain rfl := Option.some.inj hget
        rw [forRound_concat, if_pos rfl, hids]
        exact soundRow_signedRow hread hcommon.root now _
      · exact soundRow_recorded (h.rows round row hget) r.proposal
    · obtain ⟨hcommon', hread'⟩ := h.underWay r' (List.mem_of_mem_eraseIdx hr')
      exact ⟨hcommon', fun row hrow => soundRow_recorded (hread' row hrow) r.proposal⟩
    · unfold Recorder.finish
      intro p hp
      dsimp only at hp
      split at hp
      · obtain rfl := List.mem_singleton.1 hp
        exact hcommon
      · cases hp

/-- A write that meets the row it has read drops nothing. -/
theorem Complete.write {round : Int} (h : Complete round s) (hs : RecorderInv membership hmacKey root s) (k : Nat)
    (now : Flt)
    (hserial : ∀ r, s.underWay[k]? = some r → r.proposal.roundReceived = round →
      r.existing = Dict.get s.node.storage.checkpoints round) : Complete round (s.write k now).1 := by
  unfold Recorder.write
  split
  · exact h
  · rename_i r hr
    intro row hget p hp
    unfold Recorder.finish DAGStorage.upsertCheckpoint at hget
    unfold Recorder.finish at hp
    dsimp only at hget hp
    rw [Dict.get_set] at hget
    rw [forRound_concat] at hp
    split at hget
    · rename_i hround
      obtain rfl := Option.some.inj hget
      rw [if_pos hround] at hp
      refine (mem_signedRow s.node.membershipNodeIds r.existing r.proposal now p.proposerNodeId).2 ?_
      rcases List.mem_append.1 hp with hold | hnew
      · obtain ⟨row, hrow⟩ := Option.isSome_iff_exists.1 ((hs.isSome round).2 (List.ne_nil_of_mem hold))
        exact .inr ⟨row, (hserial r hr hround).trans hrow, h row hrow p hold⟩
      · rw [List.mem_singleton.1 hnew]
        exact .inl rfl
    · rename_i hround
      rw [if_neg hround] at hp
      exact h row hget p hp

theorem Complete.of_eq {round : Int} (h : Complete round s) {s' : Recorder} (hnode : s'.node = s.node)
    (hrecorded : s'.recorded = s.recorded) : Complete round s' := by
  unfold Complete
  rw [hnode, hrecorded]
  exact h

theorem Complete.read {round : Int} (h : Complete round s) (hs : RecorderInv membership hmacKey root s)
    (hp : Common hmacKey root p) (own : Bool) : Complete round (s.read p own).1 := by
  rcases hs.read_cases hp own with heq | heq
  · rw [heq]
    exact h
  · rw [heq]
    exact h.of_eq rfl rfl

theorem Complete.pass {round : Int} (h : Complete round s) (hs : RecorderInv membership hmacKey root s)
    (margin : Nat) : Complete round (s.pass margin).1 := by
  unfold Recorder.pass
  split
  · exact h
  · rename_i p hp
    exact h.read hs (passProposal_common hs hp) true

theorem Complete.deliver {round : Int} (h : Complete round s) (hs : RecorderInv membership hmacKey root s)
    (hp : Common hmacKey root p) : Complete round (s.deliver p).1 := by
  unfold Recorder.deliver
  split
  · exact h.read hs hp false
  · exact h

end Recorders

/-! ## Runs -/

/-- One membership and one key, no checkpoints, no recordings and nothing
broadcast yet, and one root for each round. -/
structure ExchangeStart {ι : Type} (membership : Membership) (hmacKey : String) (root : Int → String)
    (x : Exchange ι) : Prop where
  membership : ∀ i, (x.nodes i).node.membership = membership
  hmacKey : ∀ i, (x.nodes i).node.config.hmacKey = hmacKey
  roots : ∀ i r, computeMerkleRoot ((x.nodes i).node.eventsUpToRoundReceived r) = root r
  checkpoints : ∀ i, (x.nodes i).node.storage.checkpoints = []
  underWay : ∀ i, (x.nodes i).underWay = []
  recorded : ∀ i, (x.nodes i).recorded = []
  sent : x.sent = []

structure ExchangeInv {ι : Type} (membership : Membership) (hmacKey : String) (root : Int → String)
    (x : Exchange ι) : Prop where
  nodes : ∀ i, RecorderInv membership hmacKey root (x.nodes i)
  sent : ∀ p ∈ x.sent, Common hmacKey root p

section Runs
variable {ι : Type} {membership : Membership} {hmacKey : String} {root : Int → String} {x : Exchange ι}

theorem ExchangeStart.inv (h : ExchangeStart membership hmacKey root x) :
    ExchangeInv membership hmacKey root x := by
  refine ⟨fun i => ⟨fun r => ?_, fun r row hrow => ?_, fun r hr => ?_, h.roots i, h.membership i, h.hmacKey i⟩,
    fun p hp => ?_⟩
  · rw [h.recorded i, h.checkpoints i]
    simp [forRound]
  · rw [h.checkpoints i] at hrow
    cases hrow
  · rw [h.underWay i] at hr
    cases hr
  · rw [h.sent] at hp
    cases hp

theorem ExchangeStart.complete (h : ExchangeStart membership hmacKey root x) (i : ι) (round : Int) :
    Complete round (x.nodes i) := by
  intro row hrow
  rw [h.checkpoints i] at hrow
  cases hrow

variable [DecidableEq ι]

/-- A call at one node that keeps it sound and broadcasts common proposals. -/
theorem ExchangeInv.setNode (h : ExchangeInv membership hmacKey root x) (i : ι) {result : Recorder.Result}
    (hn : RecorderInv membership hmacKey root result.1) (hsent : ∀ p ∈ result.2, Common hmacKey root p) :
    ExchangeInv membership hmacKey root (x.setNode i result) := by
  refine ⟨fun j => ?_, fun p hp => ?_⟩
  · show RecorderInv _ _ _ (Function.update x.nodes i _ j)
    by_cases hj : j = i
    · subst hj
      rw [Function.update_self]
      exact hn
    · rw [Function.update_of_ne hj]
      exact h.nodes j
  · rcases List.mem_append.1 hp with hold | hnew
    · exact h.sent p hold
    · exact hsent p hnew

theorem Exchange.step_inv (x : Exchange ι) (a : ExchangeAct ι) (h : ExchangeInv membership hmacKey root x) :
    ExchangeInv membership hmacKey root (x.step a) := by
  cases a with
  | pass i margin =>
    obtain ⟨hn, hsent⟩ := (h.nodes i).pass margin
    exact h.setNode i hn fun p hp => absurd hp (hsent ▸ List.not_mem_nil)
  | deliver i k =>
    unfold Exchange.step
    dsimp only
    split
    · rename_i p hk
      obtain ⟨hn, hsent⟩ := (h.nodes i).deliver (h.sent p (List.mem_of_getElem? hk))
      exact h.setNode i hn fun p hp => absurd hp (hsent ▸ List.not_mem_nil)
    · exact h
  | write i k now =>
    obtain ⟨hn, hsent⟩ := (h.nodes i).write k now
    exact h.setNode i hn hsent

theorem setNode_complete {i : ι} {round : Int} (h : Complete round (x.nodes i)) {j : ι} {result : Recorder.Result}
    (hn : j = i → Complete round result.1) : Complete round ((x.setNode j result).nodes i) := by
  show Complete round (Function.update x.nodes j result.1 i)
  by_cases hj : i = j
  · subst hj
    rw [Function.update_self]
    exact hn rfl
  · rw [Function.update_of_ne hj]
    exact h

theorem Exchange.step_complete {i : ι} {round : Int} (x : Exchange ι) (a : ExchangeAct ι)
    (h : ExchangeInv membership hmacKey root x ∧ Complete round (x.nodes i)) (hserial : x.Serial i round a) :
    ExchangeInv membership hmacKey root (x.step a) ∧ Complete round ((x.step a).nodes i) := by
  obtain ⟨hinv, hcomplete⟩ := h
  refine ⟨x.step_inv a hinv, ?_⟩
  cases a with
  | pass j margin =>
    refine setNode_complete hcomplete fun hj => ?_
    subst hj
    exact hcomplete.pass (hinv.nodes j) margin
  | deliver j k =>
    unfold Exchange.step
    dsimp only
    split
    · rename_i p hk
      refine setNode_complete hcomplete fun hj => ?_
      subst hj
      exact hcomplete.deliver (hinv.nodes j) (hinv.sent p (List.mem_of_getElem? hk))
    · exact hcomplete
  | write j k now =>
    refine setNode_complete hcomplete fun hj => ?_
    subst hj
    exact hcomplete.write (hinv.nodes j) k now (hserial rfl)

/-- A delivery that no other call interrupts is recorded. -/
theorem delivered (h : ExchangeInv membership hmacKey root x) {i : ι} (hidle : (x.nodes i).underWay = []) {k : Nat}
    {p : CheckpointProposal} (hk : x.sent[k]? = some p) (hfits : fitsInt64 p.roundReceived = true) (now : Flt) :
    Admits Exchange.step (Exchange.Serial i p.roundReceived) x [.deliver i k, .write i 0 now] ∧
      ((run Exchange.step x [.deliver i k, .write i 0 now]).nodes i).recorded = (x.nodes i).recorded ++ [p] ∧
      ((run Exchange.step x [.deliver i k, .write i 0 now]).nodes i).underWay = [] ∧
      (run Exchange.step x [.deliver i k, .write i 0 now]).sent = x.sent := by
  have hdeliver : (x.nodes i).deliver p = ({ x.nodes i with
      underWay := [⟨p, Dict.get (x.nodes i).node.storage.checkpoints p.roundReceived, false⟩] }, []) := by
    unfold Recorder.deliver
    rw [passesCheck_common (h.nodes i) (h.sent p (List.mem_of_getElem? hk)), if_pos rfl,
      (h.nodes i).read_fits (h.sent p (List.mem_of_getElem? hk)) hfits, hidle, List.nil_append]
  have hstep : x.step (.deliver i k) = x.setNode i ({ x.nodes i with
      underWay := [⟨p, Dict.get (x.nodes i).node.storage.checkpoints p.roundReceived, false⟩] }, []) := by
    unfold Exchange.step
    dsimp only
    rw [hk, ← hdeliver]
  have hnode : (x.step (.deliver i k)).nodes i = { x.nodes i with
      underWay := [⟨p, Dict.get (x.nodes i).node.storage.checkpoints p.roundReceived, false⟩] } := by
    rw [hstep]
    exact Function.update_self ..
  have hwritten : (run Exchange.step x [.deliver i k, .write i 0 now]).nodes i =
      (((x.step (.deliver i k)).nodes i).write 0 now).1 := Function.update_self ..
  refine ⟨⟨trivial, fun _ r hr _ => ?_, trivial⟩, ?_, ?_, ?_⟩
  · rw [hnode] at hr ⊢
    obtain rfl := Option.some.inj hr
    rfl
  · rw [hwritten, hnode]
    rfl
  · rw [hwritten, hnode]
    rfl
  · show (x.step (.deliver i k)).sent ++ (((x.step (.deliver i k)).nodes i).write 0 now).2 = x.sent
    rw [hnode, hstep]
    exact (List.append_nil _).trans (List.append_nil _)

end Runs

/-- **Automatic checkpoints.** The nodes agree on the roots, the members and
the key, and start without checkpoints. After every run of passes, deliveries
and writes a node has a row for a round if and only if a recording about the
round has ended there; the row has the common root, and is confirmed if and
only if two thirds of the members are among its signers, all of whom have
proposed. When each write about the round met the row its recording had read,
the row is signed by all recorded proposers, and is confirmed if and only if
two thirds of the members are among them. -/
theorem checkpoint_confirms_exactly {ι : Type} [DecidableEq ι] {membership : Membership} {hmacKey : String}
    {root : Int → String} {x : Exchange ι} (hx : ExchangeStart membership hmacKey root x)
    (actions : List (ExchangeAct ι)) (i : ι) (r : Int) :
    ((Dict.get ((run Exchange.step x actions).nodes i).node.storage.checkpoints r).isSome = true ↔
      forRound r ((run Exchange.step x actions).nodes i).recorded ≠ []) ∧
    ∀ row, Dict.get ((run Exchange.step x actions).nodes i).node.storage.checkpoints r = some row →
      SoundRow membership.nodeIds (root r) (forRound r ((run Exchange.step x actions).nodes i).recorded) row ∧
      (Admits Exchange.step (Exchange.Serial i r) x actions →
        RowOf membership.nodeIds (root r) (forRound r ((run Exchange.step x actions).nodes i).recorded) row) := by
  have hrun : ExchangeInv membership hmacKey root (run Exchange.step x actions) :=
    run_always Exchange.step_inv actions hx.inv
  refine ⟨(hrun.nodes i).isSome r, fun row hrow => ⟨(hrun.nodes i).rows r row hrow, fun hserial => ?_⟩⟩
  have hcomplete := run_invariant
    (I := fun x => ExchangeInv membership hmacKey root x ∧ Complete r (x.nodes i))
    (fun x a h hok => Exchange.step_complete x a h hok) ⟨hx.inv, hx.complete i r⟩ hserial
  exact ((hrun.nodes i).rows r row hrow).rowOf (hcomplete.2 row hrow)

section TrioExchange

/-- Three nodes with the events of `early`, all received. -/
def quiet (id : String) : Recorder := { node := { fresh id with storage := warmStore } }

def quietTrio : Exchange Peer where
  nodes
    | .a => quiet "a"
    | .b => quiet "b"
    | .c => quiet "c"

def bothPropose : List (ExchangeAct Peer) :=
  [.pass .a 0, .pass .b 0, .write .a 0 (.fin 1), .write .b 0 (.fin 1)]

/-- The first two nodes propose at once, and both proposals reach the third. -/
def inTurn : List (ExchangeAct Peer) :=
  bothPropose ++ [.deliver .c 0, .write .c 0 (.fin 2)] ++ [.deliver .c 1, .write .c 0 (.fin 2)]

theorem quietTrio_start : ExchangeStart trio "k"
    (fun r => computeMerkleRoot ((quiet "a").node.eventsUpToRoundReceived r)) quietTrio := by
  refine ⟨fun i => ?_, fun i => ?_, fun i r => ?_, fun i => ?_, fun i => ?_, fun i => ?_, rfl⟩ <;> cases i <;> rfl

theorem bothPropose_sent : (run Exchange.step quietTrio bothPropose).sent =
    [(quiet "a").node.localProposal 0, (quiet "b").node.localProposal 0] := rfl

/-- The third node confirms the round. -/
theorem checkpoint_confirms_exactly_trio :
    ∃ row, Dict.get ((run Exchange.step quietTrio inTurn).nodes .c).node.storage.checkpoints 0 = some row ∧
      row.status = .confirmed := by
  have hinv : ∀ acts, ExchangeInv trio "k" _ (run Exchange.step quietTrio acts) :=
    fun acts => run_always Exchange.step_inv acts quietTrio_start.inv
  obtain ⟨hfirst, hrecorded, hidle, hsent⟩ := delivered (hinv bothPropose) (i := .c) rfl (k := 0)
    (p := (quiet "a").node.localProposal 0) (by rw [bothPropose_sent]; rfl) (by decide) (.fin 2)
  rw [← run_append] at hrecorded hidle hsent
  obtain ⟨hsecond, hrecorded', -⟩ := delivered (hinv _) hidle (k := 1)
    (p := (quiet "b").node.localProposal 0) (by rw [hsent, bothPropose_sent]; rfl) (by decide) (.fin 2)
  rw [← run_append] at hrecorded'
  have hproposers : (forRound 0 ((run Exchange.step quietTrio inTurn).nodes .c).recorded).map
      CheckpointProposal.proposerNodeId = ["a", "b"] := by
    unfold inTurn
    rw [hrecorded', hrecorded]
    rfl
  have hserial : Admits Exchange.step (Exchange.Serial .c 0) quietTrio inTurn := by
    unfold inTurn
    rw [admits_append, admits_append]
    exact ⟨⟨⟨trivial, trivial, fun h => Peer.noConfusion h, fun h => Peer.noConfusion h, trivial⟩, hfirst⟩, hsecond⟩
  obtain ⟨hsome, hrow⟩ := checkpoint_confirms_exactly quietTrio_start inTurn .c 0
  obtain ⟨row, hget⟩ := Option.isSome_iff_exists.1 (hsome.2 fun hnil => by
    rw [hnil] at hproposers
    cases hproposers)
  refine ⟨row, hget, ((hrow row hget).2 hserial).confirmed.2 ?_⟩
  unfold TwoThirds memberProposers
  rw [hproposers]
  decide

end TrioExchange
end Mdrj.L5
