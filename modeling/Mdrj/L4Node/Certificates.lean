import Mdrj.L4Node.Progress

/-!
# What a row certifies

A row holds one root, one members hash and the signatures of those who
proposed the root. A signature covers the members hash too, yet only the root
is compared when it is added, and the row takes the hash of the last proposal;
the first proposal for a round is compared with nothing.

Results:
* `signatures_verify_iff`: along a run every stored signature is that of its
  row's body exactly if no proposal with another members hash joins a row that
  others have signed.
* `contradiction_refused_iff`: when a signed proposal whose root is not that
  of the node's own events leaves the table as it is.
* `foreign_root_blocks`: a root that was taken keeps the node's own out.
-/
namespace Mdrj.L4
open Mdrj.Core Mdrj.L1 Mdrj.L2 Mdrj.L3

/-! ## Signatures of a row -/

/-- The proposal with its signature. -/
def CheckpointProposal.signed (q : CheckpointProposal) (hmacKey : String) : CheckpointProposal :=
  { q with signature := signProposal q hmacKey }

/-- The body is all that is signed. -/
theorem signed_signature (q : CheckpointProposal) (hmacKey : String) :
    (q.signed hmacKey).signature = signProposal (q.signed hmacKey) hmacKey := by
  have hbody : (q.signed hmacKey).canonicalBody = q.canonicalBody := rfl
  unfold signProposal
  rw [hbody]
  rfl

/-- The HMAC of the body of a row. -/
def rowSignature (hmacKey : String) (r : Int) (row : CheckpointRow) : String :=
  signProposal ⟨r, row.merkleRoot, row.membersSnapshotHash, "", ""⟩ hmacKey

/-- Every signature that is not empty is that of its row. -/
def SignaturesVerify (hmacKey : String) (s : DAGStorage) : Prop :=
  ∀ r row, Dict.get s.checkpoints r = some row → ∀ signer signature,
    Dict.get row.signatures signer = some signature → signature ≠ "" →
    signature = rowSignature hmacKey r row

theorem SignaturesVerify.of_eq {hmacKey : String} {s s' : DAGStorage} (h : s'.checkpoints = s.checkpoints) :
    SignaturesVerify hmacKey s' ↔ SignaturesVerify hmacKey s := by
  unfold SignaturesVerify
  rw [h]

/-- The row is signed by no other proposer, or its body has the same HMAC. -/
def JoinsRow (hmacKey : String) (s : DAGStorage) (q : CheckpointProposal) : Prop :=
  ∀ row, s.getCheckpoint q.roundReceived = .ok (some row) → row.merkleRoot = q.merkleRoot →
    (∀ signer signature, Dict.get row.signatures signer = some signature → signature ≠ "" →
      signer = q.proposerNodeId) ∨
    signProposal q hmacKey = rowSignature hmacKey q.roundReceived row

section Row
variable {hmacKey : String} {s : DAGStorage} {existing : Option CheckpointRow} {q : CheckpointProposal}
  {members : List String} {now : Flt}

theorem signedRow_signatures (existing : Option CheckpointRow) (q : CheckpointProposal) (members : List String)
    (now : Flt) (signer : String) :
    Dict.get (Node.signedRow existing q members now).signatures signer =
      if q.proposerNodeId = signer then some q.signature
      else existing.bind fun row => Dict.get row.signatures signer := by
  unfold Node.signedRow
  dsimp only
  rw [Dict.get_set]
  cases existing <;> rfl

/-- The row that is written verifies exactly if its signers had signed its
body. -/
theorem upsert_verify_iff (hfit : fitsInt64 q.roundReceived = true)
    (hex : Dict.get s.checkpoints q.roundReceived = existing)
    (hroot : ∀ row, existing = some row → row.merkleRoot = q.merkleRoot)
    (hsig : q.signature ≠ "" → q.signature = signProposal q hmacKey) (hs : SignaturesVerify hmacKey s) :
    SignaturesVerify hmacKey (s.upsertCheckpoint q.roundReceived (Node.signedRow existing q members now)) ↔
      JoinsRow hmacKey s q := by
  have hget : s.getCheckpoint q.roundReceived = .ok existing := by
    unfold DAGStorage.getCheckpoint
    rw [if_pos hfit, hex]
  obtain ⟨t, ht⟩ := s.upsertCheckpoint_get q.roundReceived (Node.signedRow existing q members now)
  constructor
  · intro h row hrow hsame
    obtain rfl : existing = some row := Except.ok.inj (hget.symm.trans hrow)
    refine or_iff_not_imp_left.2 fun hother => ?_
    push Not at hother
    obtain ⟨signer, signature, hmem, hne, hsigner⟩ := hother
    have hold := hs q.roundReceived row hex signer signature hmem hne
    have hkept := signedRow_signatures (some row) q members now signer
    rw [if_neg (Ne.symm hsigner)] at hkept
    exact (h q.roundReceived _ ht signer signature (hkept.trans hmem) hne).symm.trans hold
  · intro h r row hrow signer signature hmem hne
    by_cases hr : q.roundReceived = r
    · subst hr
      obtain rfl := Option.some.inj (ht.symm.trans hrow)
      change signature = signProposal q hmacKey
      have hmem' := (signedRow_signatures existing q members now signer).symm.trans hmem
      split at hmem'
      · obtain rfl := Option.some.inj hmem'
        exact hsig hne
      · rename_i hother
        obtain ⟨row, rfl, hmem'⟩ := Option.bind_eq_some_iff.1 hmem'
        rcases h row hget (hroot row rfl) with hsingle | hsame
        · exact absurd (hsingle signer signature hmem' hne).symm hother
        · exact (hs q.roundReceived row hex signer signature hmem' hne).trans hsame.symm
    · refine hs r row ?_ signer signature hmem hne
      unfold DAGStorage.upsertCheckpoint at hrow
      dsimp only at hrow
      rwa [Dict.get_set_ne _ _ hr] at hrow

end Row

/-! ## Runs -/

namespace Process

/-- What is recorded of a proposal off the wire joins its row. -/
def Joins (s : Process) (p : WireProposal) : Prop :=
  ∀ q, p.bound = some q → JoinsRow s.node.config.hmacKey s.node.storage q

/-- A proposal that is made or accepted joins its row. -/
def JoinsRows (s : Process) : ProcessAction → Prop
  | .propose targetRound _ => 0 ≤ targetRound → s.node.eventsUpToRoundReceived targetRound ≠ [] →
      s.Joins (s.node.localProposal targetRound).wire
  | .ingest payload _ => ∀ p, checkedProposal s.node.config.hmacKey payload = .ok p → s.Joins p
  | _ => True

section Steps
variable {s : Process} {hmacKey : String}

theorem recordProposalSignature_config (s : Process) (p : WireProposal) (now : Flt) :
    (s.recordProposalSignature p now).1.node.config = s.node.config := by
  unfold recordProposalSignature
  split
  · rfl
  · split
    · rfl
    · dsimp only
      split <;> rfl

/-- A proposal is refused, or recorded. -/
theorem proposeLocalCheckpoint_recorded (s : Process) (targetRound : Int) (now : Flt) :
    (s.proposeLocalCheckpoint targetRound now).1 = s ∧
        (targetRound < 0 ∨ s.node.config.hmacKey = "" ∨ s.node.eventsUpToRoundReceived targetRound = []) ∨
      (0 ≤ targetRound ∧ s.node.eventsUpToRoundReceived targetRound ≠ []) ∧
        (s.proposeLocalCheckpoint targetRound now).1 =
          (s.recordProposalSignature (s.node.localProposal targetRound).wire now).1 := by
  unfold proposeLocalCheckpoint
  dsimp only
  split
  · rename_i h
    exact .inl ⟨rfl, .inl h⟩
  · rename_i h0
    split
    · rename_i h
      exact .inl ⟨rfl, .inr (.inl h)⟩
    · split
      · rename_i h
        exact .inl ⟨rfl, .inr (.inr (List.isEmpty_iff.1 h))⟩
      · rename_i hev
        refine .inr ⟨⟨not_lt.1 h0, fun h => hev (List.isEmpty_iff.2 h)⟩, ?_⟩
        split
        · rename_i hrec
          rw [hrec]
        · rename_i hrec
          rw [hrec]

theorem step_config (s : Process) (a : ProcessAction) : (s.step a).node.config = s.node.config := by
  cases a with
  | propose targetRound now =>
    unfold step
    dsimp only
    rcases proposeLocalCheckpoint_recorded s targetRound now with ⟨heq, -⟩ | ⟨-, heq⟩
    · rw [heq]
    · rw [heq, recordProposalSignature_config]
  | ingest payload now =>
    unfold step ingestCheckpointProposal
    dsimp only
    split
    · rfl
    · exact recordProposalSignature_config _ _ _
  | reconfigure registry =>
    unfold step
    dsimp only
    rw [Node.reconfigureConsensusMembership_node]
    exact (Node.recomputeConsensus_same (s.node.withRegistry registry)).config
  | emit cls payload ts now pick => exact (Node.emitEvent_same s.node cls payload ts now pick).config
  | retain now => exact (Node.runRetentionOnce_same s.node now).config

/-- A proposal is refused, for its round, its texts or its root, or its row is
written. -/
theorem recordProposalSignature_cases (s : Process) (p : WireProposal) (now : Flt) :
    (s.recordProposalSignature p now).1.node = s.node ∧
        (∀ q, p.bound = some q → fitsInt64 q.roundReceived = true →
          ∃ row, Dict.get s.node.storage.checkpoints q.roundReceived = some row ∧
            row.merkleRoot ≠ q.merkleRoot) ∨
      ∃ q, p.bound = some q ∧ fitsInt64 q.roundReceived = true ∧
        (∀ row, Dict.get s.node.storage.checkpoints q.roundReceived = some row →
          row.merkleRoot = q.merkleRoot) ∧
        (s.recordProposalSignature p now).1.node = { s.node with
          storage := s.node.storage.upsertCheckpoint q.roundReceived (Node.signedRow
            (Dict.get s.node.storage.checkpoints q.roundReceived) q s.node.membershipNodeIds now) } := by
  cases hbound : p.bound with
  | none => exact .inl ⟨recordProposalSignature_unwritten hbound, fun q hq => nomatch hq⟩
  | some q =>
    obtain rfl := WireProposal.bound_eq_some.1 hbound
    have hnode := (recordProposalSignature_wire s q now).1
    by_cases hfit : fitsInt64 q.roundReceived = true
    · by_cases hroot : ∀ row, Dict.get s.node.storage.checkpoints q.roundReceived = some row →
          row.merkleRoot = q.merkleRoot
      · obtain ⟨row, hrec⟩ := Node.recordProposalSignature_signed now hfit hroot
        refine .inr ⟨q, rfl, hfit, hroot, ?_⟩
        rw [hnode, hrec]
      · push Not at hroot
        obtain ⟨row, hrow, hne⟩ := hroot
        refine .inl ⟨?_, fun q' hq' _ => Option.some.inj hq' ▸ ⟨row, hrow, hne⟩⟩
        rw [hnode]
        unfold Node.recordProposalSignature DAGStorage.getCheckpoint
        rw [if_pos hfit, hrow]
        simp [hne]
    · refine .inl ⟨?_, fun q' hq' hfit' => absurd (Option.some.inj hq' ▸ hfit') hfit⟩
      rw [hnode]
      unfold Node.recordProposalSignature DAGStorage.getCheckpoint
      rw [if_neg hfit]

/-- A recorded proposal keeps the signatures exactly if it joins its row. -/
theorem recordProposalSignature_verify (p : WireProposal) (now : Flt)
    (hsig : ∀ q, p.bound = some q → q.signature ≠ "" →
      q.signature = signProposal q s.node.config.hmacKey)
    (hs : SignaturesVerify s.node.config.hmacKey s.node.storage) :
    SignaturesVerify s.node.config.hmacKey (s.recordProposalSignature p now).1.node.storage ↔ s.Joins p := by
  rcases recordProposalSignature_cases s p now with ⟨hnode, hrefused⟩ | ⟨q, hq, hfit, hroot, hnode⟩
  · rw [hnode]
    refine ⟨fun _ q hq row hget hsame => ?_, fun _ => hs⟩
    unfold DAGStorage.getCheckpoint at hget
    split at hget
    · rename_i hfit
      obtain ⟨row', hrow', hne⟩ := hrefused q hq hfit
      obtain rfl := Option.some.inj (hrow'.symm.trans (Except.ok.inj hget))
      exact absurd hsame hne
    · cases hget
  · rw [hnode, upsert_verify_iff hfit rfl hroot (hsig q hq) hs]
    unfold Joins
    rw [hq]
    exact ⟨fun h q' hq' => Option.some.inj hq' ▸ h, fun h => h q rfl⟩

theorem checkedProposal_signature {payload : WirePayload} {p : WireProposal} (hkey : hmacKey ≠ "")
    (h : checkedProposal hmacKey payload = .ok p) {q : CheckpointProposal} (hq : p.bound = some q)
    (hne : q.signature ≠ "") : q.signature = signProposal q hmacKey := by
  obtain rfl := WireProposal.bound_eq_some.1 hq
  unfold checkedProposal at h
  split at h
  · cases h
  · split at h
    · split at h
      · cases h
      · cases h
      · rename_i hverify
        obtain rfl := Except.ok.inj h
        rw [CheckpointProposal.verifySignature_wire] at hverify
        unfold verifyProposalSignature at hverify
        split at hverify
        · exact (of_decide_eq_true (Except.ok.inj hverify)).symm
        · cases hverify
    · rename_i hno
      obtain rfl := Except.ok.inj h
      exact absurd ⟨hkey, hne⟩ hno

theorem verifySignature_signed {q : CheckpointProposal} (h : q.signature = signProposal q hmacKey) :
    q.wire.verifySignature hmacKey = .ok true := by
  rw [CheckpointProposal.verifySignature_wire, h, verify_signProposal]

/-- A signed proposal is accepted. -/
theorem checkedProposal_verified {payload : WirePayload} {p : WireProposal}
    (hp : WireProposal.fromDict payload = .ok p) (hverify : p.verifySignature hmacKey = .ok true) :
    checkedProposal hmacKey payload = .ok p := by
  unfold checkedProposal
  rw [hp]
  dsimp only
  rw [hverify]
  split <;> rfl

theorem checkedProposal_signed {q : CheckpointProposal} (h : q.signature = signProposal q hmacKey) :
    checkedProposal hmacKey q.toDict.wire = .ok q.wire :=
  checkedProposal_verified rfl (verifySignature_signed h)

/-- The row after a signed proposal for its root. -/
theorem ingest_signed {q : CheckpointProposal} (now : Flt)
    (hsig : q.signature = signProposal q s.node.config.hmacKey) (hfit : fitsInt64 q.roundReceived = true)
    (hroot : ∀ row, Dict.get s.node.storage.checkpoints q.roundReceived = some row →
      row.merkleRoot = q.merkleRoot) :
    ∃ t, Dict.get (s.step (.ingest q.toDict.wire now)).node.storage.checkpoints q.roundReceived =
      some { Node.signedRow (Dict.get s.node.storage.checkpoints q.roundReceived) q
        s.node.membershipNodeIds now with createdAt := t } := by
  unfold step ingestCheckpointProposal
  dsimp only
  rw [checkedProposal_signed hsig]
  dsimp only
  rcases recordProposalSignature_cases s q.wire now with ⟨-, hrefused⟩ | ⟨q', hq', -, -, hnode⟩
  · obtain ⟨row, hrow, hne⟩ := hrefused q (WireProposal.bound_eq_some.2 rfl) hfit
    exact absurd (hroot row hrow) hne
  · rw [WireProposal.bound_eq_some.2 rfl] at hq'
    obtain rfl := Option.some.inj hq'
    rw [hnode]
    exact s.node.storage.upsertCheckpoint_get _ _

/-- A step keeps the signatures exactly if its proposal joins its row. -/
theorem step_verify (hkey : s.node.config.hmacKey ≠ "")
    (hs : SignaturesVerify s.node.config.hmacKey s.node.storage) (a : ProcessAction) :
    SignaturesVerify s.node.config.hmacKey (s.step a).node.storage ↔ s.JoinsRows a := by
  cases a with
  | propose targetRound now =>
    unfold step JoinsRows
    dsimp only
    rcases proposeLocalCheckpoint_recorded s targetRound now with ⟨heq, hidle⟩ | ⟨⟨h0, hev⟩, heq⟩
    · rw [heq]
      refine ⟨fun _ h0 hev => ?_, fun _ => hs⟩
      rcases hidle with hneg | hempty | hnone
      · exact absurd h0 (not_le.2 hneg)
      · exact absurd hempty hkey
      · exact absurd hnone hev
    · have hown : ∀ q, (s.node.localProposal targetRound).wire.bound = some q → q.signature ≠ "" →
          q.signature = signProposal q s.node.config.hmacKey := by
        intro q hq _
        rw [WireProposal.bound_eq_some.2 rfl] at hq
        obtain rfl := Option.some.inj hq
        rfl
      rw [heq, recordProposalSignature_verify _ now hown hs]
      exact ⟨fun h _ _ => h, fun h => h h0 hev⟩
  | ingest payload now =>
    unfold step JoinsRows ingestCheckpointProposal
    dsimp only
    cases hchecked : checkedProposal s.node.config.hmacKey payload with
    | error err => exact ⟨fun _ _ h => (nomatch h), fun _ => hs⟩
    | ok p =>
      dsimp only
      rw [recordProposalSignature_verify p now (fun q hq hne => checkedProposal_signature hkey hchecked hq hne) hs]
      exact ⟨fun h q hq => Except.ok.inj hq ▸ h, fun h => h p rfl⟩
  | reconfigure registry =>
    exact ⟨fun _ => trivial, fun _ =>
      (SignaturesVerify.of_eq (Node.reconfigureConsensusMembership_checkpoints s.node registry)).2 hs⟩
  | emit cls payload ts now pick =>
    exact ⟨fun _ => trivial, fun _ =>
      (SignaturesVerify.of_eq (Node.emitEvent_same s.node cls payload ts now pick).checkpoints).2 hs⟩
  | retain now =>
    exact ⟨fun _ => trivial, fun _ =>
      (SignaturesVerify.of_eq (Node.runRetentionOnce_same s.node now).checkpoints).2 hs⟩

/-- A signed proposal with another members hash takes the row from those who
have signed it. -/
theorem ingest_mixes {q : CheckpointProposal} (now : Flt)
    (hsig : q.signature = signProposal q s.node.config.hmacKey) (hfit : fitsInt64 q.roundReceived = true)
    {row : CheckpointRow} (hrow : Dict.get s.node.storage.checkpoints q.roundReceived = some row)
    (hroot : row.merkleRoot = q.merkleRoot) {signer signature : String}
    (hmem : Dict.get row.signatures signer = some signature) (hne : signature ≠ "")
    (hsigner : signer ≠ q.proposerNodeId)
    (hold : signature ≠ signProposal q s.node.config.hmacKey) :
    ¬ SignaturesVerify s.node.config.hmacKey (s.step (.ingest q.toDict.wire now)).node.storage := by
  intro h
  obtain ⟨t, hget⟩ := ingest_signed now hsig hfit fun row' hrow' =>
    Option.some.inj (hrow.symm.trans hrow') ▸ hroot
  have hkept := signedRow_signatures (Dict.get s.node.storage.checkpoints q.roundReceived) q
    s.node.membershipNodeIds now signer
  rw [if_neg (Ne.symm hsigner), hrow, Option.bind_some, hmem, ← hrow] at hkept
  exact hold (h q.roundReceived _ hget signer signature hkept hne)

/-- **Stored signatures verify.** Along a run, every signature of a row is the
HMAC of the row's own body if and only if each proposal that is made or
accepted joins its row: it brings a members hash of the same HMAC, or nobody
else has signed there. -/
theorem signatures_verify_iff (s : Process) (hkey : s.node.config.hmacKey ≠ "")
    (hs : SignaturesVerify s.node.config.hmacKey s.node.storage) (actions : List ProcessAction) :
    (∀ pre, pre <+: actions → SignaturesVerify s.node.config.hmacKey (run step s pre).node.storage) ↔
      Admits step JoinsRows s actions := by
  have hstep : ∀ (s' : Process) (a : ProcessAction), s'.node.config.hmacKey = s.node.config.hmacKey →
      SignaturesVerify s.node.config.hmacKey s'.node.storage →
      (SignaturesVerify s.node.config.hmacKey (s'.step a).node.storage ↔ s'.JoinsRows a) := by
    intro s' a hsame hs'
    rw [← hsame] at hkey hs' ⊢
    exact step_verify hkey hs' a
  refine (admits_iff (I := fun s' : Process => s'.node.config.hmacKey = s.node.config.hmacKey ∧
      SignaturesVerify s.node.config.hmacKey s'.node.storage) (fun _ h => h.2) ?_ ?_ ⟨rfl, hs⟩).symm
  · intro s' a h hjoins
    exact ⟨by rw [step_config, h.1], (hstep s' a h.1 h.2).2 hjoins⟩
  · intro s' a h hno hafter
    exact hno ((hstep s' a h.1 h.2).1 hafter)

/-- A node with a key and no rows. -/
def keyed : Process where
  node := { config := { nodeId := "n1", hmacKey := "k" }, membership := ⟨[], ""⟩ }

/-- The proposal of the root `m` for round zero under a membership, signed. -/
def proposalBy (proposer hash : String) : CheckpointProposal := .signed ⟨0, "m", hash, proposer, ""⟩ "k"

theorem signatures_verify_reconfigured : keyed.node.config.hmacKey ≠ "" ∧ ∀ pre, pre <+:
    [.ingest (proposalBy "a" "h1").toDict.wire (.fin 1), .reconfigure { peers := [] }] →
    SignaturesVerify keyed.node.config.hmacKey (run step keyed pre).node.storage := by
  refine ⟨by decide, (signatures_verify_iff keyed (by decide) (fun r row h => nomatch h) _).2
    ⟨?_, trivial, trivial⟩⟩
  intro p _ q _ row hrow
  unfold DAGStorage.getCheckpoint at hrow
  split at hrow <;> cases hrow

/-- Two proposals of one root, under two memberships: the first signature no
longer fits the row. -/
theorem mixed_members_unverifiable : SignaturesVerify "k" keyed.node.storage ∧
    ¬ SignaturesVerify "k" (run step keyed
      [.ingest (proposalBy "a" "h1").toDict.wire (.fin 1),
        .ingest (proposalBy "b" "h2").toDict.wire (.fin 2)]).node.storage := by
  refine ⟨fun r row h => (nomatch h), ?_⟩
  have hkey : (step keyed (.ingest (proposalBy "a" "h1").toDict.wire (.fin 1))).node.config.hmacKey = "k" := by
    rw [step_config]
    rfl
  obtain ⟨t, hfirst⟩ := ingest_signed (s := keyed) (q := proposalBy "a" "h1") (.fin 1) (signed_signature _ "k")
    rfl fun row hrow => nomatch hrow
  have hmem := (signedRow_signatures none (proposalBy "a" "h1") keyed.node.membershipNodeIds (.fin 1) "a").trans
    (if_pos rfl)
  have hdiffer : (proposalBy "a" "h1").signature ≠ signProposal (proposalBy "b" "h2") "k" := by decide +kernel
  have hmixed := ingest_mixes (s := step keyed (.ingest (proposalBy "a" "h1").toDict.wire (.fin 1)))
    (q := proposalBy "b" "h2") (.fin 2) (by rw [hkey]; exact signed_signature _ "k") rfl hfirst rfl hmem
    (by decide +kernel) (by decide) (by rw [hkey]; exact hdiffer)
  rw [hkey] at hmixed
  unfold run
  rw [List.foldl_cons, List.foldl_cons, List.foldl_nil]
  exact hmixed

end Steps
end Process

/-! ## Roots against the journal -/

/-- The proposal has another root than the node's own events up to its round. -/
def Contradicts (n : Node) (p : WireProposal) : Prop :=
  n.eventsUpToRoundReceived p.roundReceived ≠ [] ∧
    p.merkleRoot ≠ .plain (computeMerkleRoot (n.eventsUpToRoundReceived p.roundReceived))

/-- A row that stays as it is when the proposal is recorded once more. -/
structure Settled (row : CheckpointRow) (q : CheckpointProposal) (members : List String) (now : Flt) : Prop where
  hash : row.membersSnapshotHash = q.membersSnapshotHash
  signed : Dict.get row.signatures q.proposerNodeId = some q.signature
  confirmed : isQuorumReached row.signatures members = true →
    row.status = .confirmed ∧ row.confirmedAt = some now
  pending : isQuorumReached row.signatures members = false → row.confirmedAt ≠ some (.fin 0)

/-- A proposal that finds no place: its texts or its round cannot be written,
or the row has another root, or has it all already. -/
def Refuses (n : Node) (p : WireProposal) (now : Flt) : Prop :=
  p.bound = none ∨ fitsInt64 p.roundReceived = false ∨
    ∃ row, Dict.get n.storage.checkpoints p.roundReceived = some row ∧
      (.plain row.merkleRoot ≠ p.merkleRoot ∨
        ∀ q, p.bound = some q → Settled row q n.membershipNodeIds now)

section Journal
variable {s : DAGStorage} {row : CheckpointRow} {q : CheckpointProposal} {members : List String} {now : Flt}

theorem upsert_unchanged_iff (s : DAGStorage) (r : Int) (row' : CheckpointRow) :
    (s.upsertCheckpoint r row').checkpoints = s.checkpoints ↔
      ∃ row, Dict.get s.checkpoints r = some row ∧ { row' with createdAt := row.createdAt } = row := by
  constructor
  · intro h
    unfold DAGStorage.upsertCheckpoint at h
    have hget := congrArg (fun table => Dict.get table r) h
    dsimp only at hget
    rw [Dict.get_set_self] at hget
    cases hrow : Dict.get s.checkpoints r with
    | none => rw [hrow] at hget; cases hget
    | some row =>
      rw [hrow] at hget
      exact ⟨row, rfl, Option.some.inj hget⟩
  · intro h
    obtain ⟨row, hrow, hsame⟩ := h
    unfold DAGStorage.upsertCheckpoint
    rw [hrow]
    dsimp only
    rw [hsame]
    exact Dict.set_get_self hrow

theorem signedRow_settled_iff (hroot : row.merkleRoot = q.merkleRoot) :
    { Node.signedRow (some row) q members now with createdAt := row.createdAt } = row ↔
      Settled row q members now := by
  constructor
  · intro h
    have hsigs : Dict.set row.signatures q.proposerNodeId q.signature = row.signatures :=
      congrArg CheckpointRow.signatures h
    have hstatus := congrArg CheckpointRow.status h
    have hconfirmed := congrArg CheckpointRow.confirmedAt h
    unfold Node.signedRow at hstatus hconfirmed
    dsimp only [Option.map_some, Option.getD_some, Option.bind_some] at hstatus hconfirmed
    rw [hsigs] at hstatus hconfirmed
    refine ⟨(congrArg CheckpointRow.membersSnapshotHash h).symm, ?_, fun hq => ?_, fun hq h0 => ?_⟩
    · rw [← hsigs, Dict.get_set_self]
    · rw [if_pos hq] at hstatus hconfirmed
      exact ⟨hstatus.symm, hconfirmed.symm⟩
    · rw [hq, h0] at hconfirmed
      cases hconfirmed
  · intro h
    have hsigs : Dict.set row.signatures q.proposerNodeId q.signature = row.signatures :=
      Dict.set_get_self h.signed
    unfold Node.signedRow
    dsimp only [Option.map_some, Option.getD_some, Option.bind_some]
    rw [hsigs, ← hroot, ← h.hash]
    cases hq : isQuorumReached row.signatures members with
    | true =>
      obtain ⟨hstatus, hconfirmed⟩ := h.confirmed hq
      rw [if_pos rfl, if_pos rfl, ← hstatus, ← hconfirmed]
    | false =>
      have hkept : row.confirmedAt.filter (· ≠ .fin 0) = row.confirmedAt := by
        cases hc : row.confirmedAt with
        | none => rfl
        | some t =>
          have ht : t ≠ .fin 0 := fun h0 => h.pending hq (hc.trans (congrArg some h0))
          simp [Option.filter, ht]
      have hstatus : (if some row.status = some CheckpointStatus.confirmed then CheckpointStatus.confirmed
          else .pending) = row.status := by
        cases row.status <;> rfl
      rw [if_neg Bool.false_ne_true, if_neg Bool.false_ne_true, hkept, hstatus]

/-- A signed proposal leaves the table as it is exactly if it is refused. -/
theorem ingest_unchanged_iff {s : Process} {payload : WirePayload} {p : WireProposal} (now : Flt)
    (hp : WireProposal.fromDict payload = .ok p)
    (hverify : p.verifySignature s.node.config.hmacKey = .ok true) :
    (s.ingestCheckpointProposal payload now).1.node.storage.checkpoints = s.node.storage.checkpoints ↔
      Refuses s.node p now := by
  unfold Process.ingestCheckpointProposal Refuses
  rw [Process.checkedProposal_verified hp hverify]
  dsimp only
  rcases Process.recordProposalSignature_cases s p now with ⟨hnode, hrefused⟩ | ⟨q, hq, hfit, hroot, hnode⟩
  · rw [hnode]
    refine ⟨fun _ => ?_, fun _ => rfl⟩
    cases hbound : p.bound with
    | none => exact .inl rfl
    | some q =>
      obtain rfl := WireProposal.bound_eq_some.1 hbound
      cases hfit : fitsInt64 q.wire.roundReceived with
      | false => exact .inr (.inl rfl)
      | true =>
        obtain ⟨row, hrow, hne⟩ := hrefused q hbound hfit
        exact .inr (.inr ⟨row, hrow, .inl fun h => hne (Text.plain.inj h)⟩)
  · obtain rfl := WireProposal.bound_eq_some.1 hq
    rw [hnode, upsert_unchanged_iff]
    have hround : q.wire.roundReceived = q.roundReceived := rfl
    rw [hround, hq, hfit]
    constructor
    · intro h
      obtain ⟨row, hrow, hsame⟩ := h
      rw [hrow] at hsame
      refine .inr (.inr ⟨row, hrow, .inr fun q' hq' => ?_⟩)
      obtain rfl := Option.some.inj hq'
      exact (signedRow_settled_iff (hroot row hrow)).1 hsame
    · intro h
      rcases h with h | h | ⟨row, hrow, hne | hsettled⟩
      · cases h
      · cases h
      · exact absurd (congrArg Text.plain (hroot row hrow)) hne
      · refine ⟨row, hrow, ?_⟩
        rw [hrow]
        exact (signedRow_settled_iff (hroot row hrow)).2 (hsettled q rfl)

/-- **No root against the journal.** A signed proposal whose root is not that
of the node's own events leaves the table as it is if and only if it is
refused; the events are not looked at. -/
theorem contradiction_refused_iff (s : Process) {payload : WirePayload} {p : WireProposal} (now : Flt)
    (hp : WireProposal.fromDict payload = .ok p)
    (hverify : p.verifySignature s.node.config.hmacKey = .ok true) :
    (Contradicts s.node p →
      (s.ingestCheckpointProposal payload now).1.node.storage.checkpoints = s.node.storage.checkpoints) ↔
    (Contradicts s.node p → Refuses s.node p now) :=
  imp_congr_right fun _ => ingest_unchanged_iff now hp hverify

/-- A node with one event of round zero and a key. -/
def journal (table : Dict Int CheckpointRow) : Process where
  node := {
    config := { nodeId := "n1", hmacKey := "k" }
    membership := ⟨[], ""⟩
    storage := {
      events := [⟨{ Event.linked "a0" "a" [] with roundReceived := some 0 }, .fin 0⟩]
      checkpoints := table } }

theorem journal_contradicts (table : Dict Int CheckpointRow) (proposer hash : String) :
    Contradicts (journal table).node (Process.proposalBy proposer hash).wire := by
  refine ⟨List.cons_ne_nil _ _, fun h => ?_⟩
  have hlength := congrArg String.length (Text.plain.inj h)
  rw [computeMerkleRoot, Sha256.hexdigest_length] at hlength
  have hroot : (Process.proposalBy proposer hash).merkleRoot = "m" := rfl
  rw [hroot] at hlength
  exact absurd hlength (by decide)

/-- The row of the node's own root. -/
def ownRow : CheckpointRow :=
  ⟨computeMerkleRoot [{ Event.linked "a0" "a" [] with roundReceived := some 0 }], "h1", [("n1", "")], .pending,
    none, .fin 0⟩

theorem contradiction_refused_own : Contradicts (journal [(0, ownRow)]).node (Process.proposalBy "a" "h1").wire ∧
    ((journal [(0, ownRow)]).ingestCheckpointProposal (Process.proposalBy "a" "h1").toDict.wire
      (.fin 1)).1.node.storage.checkpoints = [(0, ownRow)] := by
  have hcontra := journal_contradicts [(0, ownRow)] "a" "h1"
  refine ⟨hcontra, (contradiction_refused_iff (journal [(0, ownRow)]) (.fin 1) rfl
    (Process.verifySignature_signed (signed_signature _ "k"))).2 (fun _ => ?_) hcontra⟩
  exact .inr (.inr ⟨ownRow, rfl, .inl (Ne.symm hcontra.2)⟩)

/-- The first root to come is taken, whatever the node's own events say. -/
theorem contradiction_recorded : Contradicts (journal []).node (Process.proposalBy "a" "h1").wire ∧
    (Process.proposalBy "a" "h1").wire.verifySignature "k" = .ok true ∧
    ((journal []).ingestCheckpointProposal (Process.proposalBy "a" "h1").toDict.wire
      (.fin 1)).1.node.storage.checkpoints ≠ [] := by
  have hverify := Process.verifySignature_signed (signed_signature ⟨0, "m", "h1", "a", ""⟩ "k")
  refine ⟨journal_contradicts [] "a" "h1", hverify, fun h => ?_⟩
  have hrefuses := (ingest_unchanged_iff (s := journal []) (.fin 1) rfl hverify).1 h
  rcases hrefuses with hbound | hfit | ⟨row, hrow, -⟩
  · cases hbound
  · cases hfit
  · cases hrow

/-- A row with another root stands against the node's own proposal. -/
theorem foreign_root_blocks {s : Process} {r : Int} {row : CheckpointRow} (now : Flt)
    (hrow : Dict.get s.node.storage.checkpoints r = some row)
    (hne : row.merkleRoot ≠ computeMerkleRoot (s.node.eventsUpToRoundReceived r)) :
    (s.proposeLocalCheckpoint r now).1.node = s.node := by
  rcases Process.proposeLocalCheckpoint_recorded s r now with ⟨heq, -⟩ | ⟨-, heq⟩
  · rw [heq]
  · rw [heq]
    rcases Process.recordProposalSignature_cases s (s.node.localProposal r).wire now with
      ⟨hnode, -⟩ | ⟨q, hq, -, hroot, -⟩
    · exact hnode
    · obtain rfl := Option.some.inj ((WireProposal.bound_eq_some.2 rfl).symm.trans hq)
      exact absurd (hroot row hrow) hne

end Journal
end Mdrj.L4
