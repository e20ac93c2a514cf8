import Mdrj.Core.Runs
import Mdrj.L4Node.Quorums

/-!
# Checkpoint agreement

Nodes with one membership and one key change their stores, propose
checkpoints and deliver the proposals broadcast so far to each other, in any
order and any number of times.

A row holds signatures of broadcast proposals for its root only
(`Recorded`), and two quorums share a member, so two confirmed roots for one
round need a member that has proposed both. `propose_local_checkpoint` lets
this happen: it returns a fresh root for a round already proposed even when
the node's own row ignores it (`confirmed_roots_differ`). While no member
does so the confirmed roots agree (`checkpoint_agreement`).
-/
namespace Mdrj.L5
open Mdrj.Core Mdrj.L1 Mdrj.L3 Mdrj.L4

/-! ## The system -/

/-- The nodes and the proposals broadcast so far. -/
structure Cluster (ι : Type) where
  nodes : ι → Node
  sent : List CheckpointProposal := []

inductive Action (ι : Type) where
  | ingest (i : ι) (envelopes : List (Envelope × Flt))
  | emit (i : ι) (cls : EventClass) (payload : Json) (ts now : Flt) (pick : Nat)
  | retain (i : ι) (now : Flt)
  | propose (i : ι) (targetRound : Int) (now : Flt)
  | deliver (i : ι) (k : Nat) (now : Flt)

namespace Cluster
variable {ι : Type} [DecidableEq ι]

def setNode (c : Cluster ι) (i : ι) (n : Node) : Cluster ι :=
  { c with nodes := Function.update c.nodes i n }

/-- One call at one node. A proposal that is returned is broadcast; any
broadcast proposal may be delivered. -/
def step (c : Cluster ι) : Action ι → Cluster ι
  | .ingest i envelopes => c.setNode i ((c.nodes i).ingestEnvelopes envelopes).node
  | .emit i cls payload ts now pick =>
    c.setNode i ((c.nodes i).emitEvent cls payload ts now pick).node
  | .retain i now => c.setNode i ((c.nodes i).runRetentionOnce now).node
  | .propose i targetRound now =>
    match (c.nodes i).proposeLocalCheckpoint targetRound now with
    | ⟨n, .ok proposal⟩ => { c.setNode i n with sent := c.sent ++ [proposal] }
    | ⟨n, .error _⟩ => c.setNode i n
  | .deliver i k now =>
    match c.sent[k]? with
    | some proposal => c.setNode i ((c.nodes i).ingestCheckpointProposal proposal.toDict now).node
    | none => c

/-- One membership, one key, no checkpoints and nothing broadcast yet; the
stores hold any events. -/
structure Start (membership : Membership) (hmacKey : String) (c : Cluster ι) : Prop where
  membership : ∀ i, (c.nodes i).membership = membership
  hmacKey : ∀ i, (c.nodes i).config.hmacKey = hmacKey
  checkpoints : ∀ i, (c.nodes i).storage.checkpoints = []
  sent : c.sent = []

/-- Node `i` holds a confirmed checkpoint with this root. -/
def Confirmed (c : Cluster ι) (i : ι) (r : Int) (root : String) : Prop :=
  ∃ row, Dict.get (c.nodes i).storage.checkpoints r = some row ∧ row.status = .confirmed ∧
    row.merkleRoot = root

/-- A member that proposes a round again proposes the same root. -/
def SameRootAgain (c : Cluster ι) : Action ι → Prop
  | .propose i targetRound _ =>
    (c.nodes i).config.nodeId ∈ (c.nodes i).membershipNodeIds →
      ∀ p ∈ c.sent, p.proposerNodeId = (c.nodes i).config.nodeId → p.roundReceived = targetRound →
        p.merkleRoot = computeMerkleRoot ((c.nodes i).eventsUpToRoundReceived targetRound)
  | _ => True

end Cluster

/-! ## What a row records -/

/-- The signers of the row have broadcast its root for its round, and a
confirmed row has a quorum of them. -/
structure Recorded (members : List String) (sent : List CheckpointProposal) (r : Int)
    (row : CheckpointRow) : Prop where
  signed : ∀ m ∈ Dict.keys row.signatures, ∃ p ∈ sent,
    p.proposerNodeId = m ∧ p.roundReceived = r ∧ p.merkleRoot = row.merkleRoot
  quorum : row.status = .confirmed → isQuorumReached row.signatures members = true

theorem Recorded.mono {members : List String} {sent sent' : List CheckpointProposal} {r : Int}
    {row : CheckpointRow} (hsub : ∀ p ∈ sent, p ∈ sent') (h : Recorded members sent r row) :
    Recorded members sent' r row := by
  refine ⟨fun m hm => ?_, h.quorum⟩
  obtain ⟨p, hp, hpm⟩ := h.signed m hm
  exact ⟨p, hsub p hp, hpm⟩

/-- One more signature, of a broadcast proposal with the row's root. -/
theorem recorded_signedRow {members : List String} {sent : List CheckpointProposal}
    {existing : Option CheckpointRow} {p : CheckpointProposal} {now : Flt} (hp : p ∈ sent)
    (hold : ∀ row, existing = some row →
      row.merkleRoot = p.merkleRoot ∧ Recorded members sent p.roundReceived row) (createdAt : Flt) :
    Recorded members sent p.roundReceived
      { Node.signedRow existing p members now with createdAt := createdAt } := by
  refine ⟨fun m hm => ?_, fun hc => ?_⟩
  · rcases Dict.mem_keys_set.1 hm with rfl | hm
    · exact ⟨p, hp, rfl, rfl, rfl⟩
    · cases existing with
      | none => cases hm
      | some row =>
        obtain ⟨hroot, hrec⟩ := hold row rfl
        obtain ⟨q, hq, h1, h2, h3⟩ := hrec.signed m hm
        exact ⟨q, hq, h1, h2, h3.trans hroot⟩
  · change isQuorumReached (Dict.set _ p.proposerNodeId p.signature) members = true
    by_cases hq : isQuorumReached (Dict.set ((existing.map CheckpointRow.signatures).getD [])
      p.proposerNodeId p.signature) members = true
    · exact hq
    · -- confirmed before: the old quorum is still there
      change (if isQuorumReached (Dict.set _ p.proposerNodeId p.signature) members = true then
        CheckpointStatus.confirmed else _) = .confirmed at hc
      rw [if_neg hq] at hc
      cases existing with
      | none => simp at hc
      | some row =>
        have hst : row.status = .confirmed := by
          by_contra hne
          simp [hne] at hc
        refine isQuorumReached_mono (fun m hm => ?_) ((hold row rfl).2.quorum hst)
        exact Dict.mem_keys_set.2 (.inr hm)

/-- All rows of a node are recorded. -/
def AllRecorded (members : List String) (sent : List CheckpointProposal) (n : Node) : Prop :=
  ∀ r row, Dict.get n.storage.checkpoints r = some row → Recorded members sent r row

/-- Recording a broadcast proposal. -/
theorem recordProposalSignature_recorded {n : Node} {sent : List CheckpointProposal}
    {p : CheckpointProposal} {now : Flt} (hp : p ∈ sent)
    (h : AllRecorded n.membershipNodeIds sent n) :
    AllRecorded n.membershipNodeIds sent (n.recordProposalSignature p now).node := by
  unfold Node.recordProposalSignature DAGStorage.getCheckpoint
  split
  · exact h
  · rename_i existing hget
    split at hget
    · obtain rfl := Except.ok.inj hget
      split
      · exact h
      · rename_i hroot
        intro r row hrow
        change Dict.get (Dict.set n.storage.checkpoints p.roundReceived _) r = some row at hrow
        rw [Dict.get_set] at hrow
        split at hrow
        · rename_i hr
          subst hr
          obtain rfl := Option.some.inj hrow
          refine recorded_signedRow hp (fun row hex => ⟨?_, h _ row hex⟩) _
          rw [hex] at hroot
          simpa using hroot
        · exact h r row hrow
    · cases hget

/-- Recording is what a delivery does at most. -/
theorem ingestCheckpointProposal_recorded {n : Node} {sent : List CheckpointProposal}
    {p : CheckpointProposal} {now : Flt} (hp : p ∈ sent)
    (h : AllRecorded n.membershipNodeIds sent n) :
    AllRecorded n.membershipNodeIds sent (n.ingestCheckpointProposal p.toDict now).node := by
  rcases Node.ingestCheckpointProposal_node n p.toDict now with heq | ⟨q, hq, heq⟩
  · rw [heq]; exact h
  · obtain rfl : p = q := Except.ok.inj hq
    rw [heq]
    exact recordProposalSignature_recorded hp h

/-! ## The invariant -/

/-- The rows of every node are recorded, and no member has broadcast two
roots for one round. -/
structure ClusterInv {ι : Type} (membership : Membership) (c : Cluster ι) : Prop where
  shared : ∀ i, (c.nodes i).membership = membership
  rows : ∀ i, AllRecorded membership.nodeIds c.sent (c.nodes i)
  once : ∀ p ∈ c.sent, ∀ q ∈ c.sent, p.proposerNodeId = q.proposerNodeId →
    p.proposerNodeId ∈ membership.nodeIds → p.roundReceived = q.roundReceived →
      p.merkleRoot = q.merkleRoot

section Steps
variable {ι : Type} {membership : Membership} {c : Cluster ι}

theorem Cluster.Start.inv {hmacKey : String} (h : Cluster.Start membership hmacKey c) :
    ClusterInv membership c := by
  refine ⟨h.membership, fun i r row hrow => ?_, fun p hp => ?_⟩
  · rw [h.checkpoints i] at hrow; cases hrow
  · rw [h.sent] at hp; cases hp

/-- One more proposal of a member, with the root it has proposed before, if
it has proposed the round. -/
theorem ClusterInv.broadcast (h : ClusterInv membership c) {p : CheckpointProposal}
    (hp : p.proposerNodeId ∈ membership.nodeIds → ∀ q ∈ c.sent,
      q.proposerNodeId = p.proposerNodeId → q.roundReceived = p.roundReceived →
        q.merkleRoot = p.merkleRoot) :
    ClusterInv membership { c with sent := c.sent ++ [p] } := by
  refine ⟨h.shared, fun i r row hrow => ?_, ?_⟩
  · exact (h.rows i r row hrow).mono fun q hq => List.mem_append_left _ hq
  · intro q hq q' hq' hid hmem hround
    rw [List.mem_append, List.mem_singleton] at hq hq'
    rcases hq with hq | rfl
    · rcases hq' with hq' | rfl
      · exact h.once q hq q' hq' hid hmem hround
      · exact hp (hid ▸ hmem) q hq hid hround
    · rcases hq' with hq' | rfl
      · exact (hp hmem q' hq' hid.symm hround.symm).symm
      · rfl

/-- Two confirmed roots for one round are signed by a common member. -/
theorem ClusterInv.agree (h : ClusterInv membership c) {i j : ι} {r : Int} {root root' : String}
    (hi : c.Confirmed i r root) (hj : c.Confirmed j r root') : root = root' := by
  obtain ⟨row, hrow, hc, rfl⟩ := hi
  obtain ⟨row', hrow', hc', rfl⟩ := hj
  have hrec := h.rows i r row hrow
  have hrec' := h.rows j r row' hrow'
  obtain ⟨m, hm, hs, hs'⟩ := exists_common_signer (hrec.quorum hc) (hrec'.quorum hc')
  obtain ⟨p, hp, rfl, hpr, hroot⟩ := hrec.signed m hs
  obtain ⟨q, hq, hid, hqr, hroot'⟩ := hrec'.signed _ hs'
  rw [← hroot, ← hroot']
  exact h.once p hp q hq hid.symm hm (hpr.trans hqr.symm)

variable [DecidableEq ι]

/-- A call at one node that keeps its membership and records its rows. -/
theorem ClusterInv.setNode (h : ClusterInv membership c) {i : ι} {n : Node}
    (hm : n.membership = (c.nodes i).membership) (hr : AllRecorded membership.nodeIds c.sent n) :
    ClusterInv membership (c.setNode i n) := by
  refine ⟨fun j => ?_, fun j => ?_, h.once⟩
  · by_cases hj : j = i
    · subst hj
      show (Function.update c.nodes j n j).membership = membership
      rw [Function.update_self, hm, h.shared]
    · show (Function.update c.nodes i n j).membership = membership
      rw [Function.update_of_ne hj, h.shared]
  · by_cases hj : j = i
    · subst hj
      show AllRecorded _ _ (Function.update c.nodes j n j)
      rw [Function.update_self]
      exact hr
    · show AllRecorded _ _ (Function.update c.nodes i n j)
      rw [Function.update_of_ne hj]
      exact h.rows j

theorem ClusterInv.same (h : ClusterInv membership c) {i : ι} {n : Node}
    (hs : Node.SameCheckpoints (c.nodes i) n) : ClusterInv membership (c.setNode i n) := by
  refine h.setNode hs.membership fun r row hrow => ?_
  rw [hs.checkpoints] at hrow
  exact h.rows i r row hrow

theorem step_inv (c : Cluster ι) (a : Action ι) (h : ClusterInv membership c) (hok : c.SameRootAgain a) :
    ClusterInv membership (c.step a) := by
  cases a with
  | ingest i envelopes => exact h.same (Node.ingestEnvelopes_same _ _)
  | emit i cls payload ts now pick => exact h.same (Node.emitEvent_same _ _ _ _ _ _)
  | retain i now => exact h.same (Node.runRetentionOnce_same _ _)
  | propose i targetRound now =>
    unfold Cluster.step
    dsimp only
    split
    · rename_i n p hcall
      obtain ⟨hid, hround, hroot, rfl⟩ := Node.proposeLocalCheckpoint_ok hcall
      have hmem : (c.nodes i).membershipNodeIds = membership.nodeIds :=
        congrArg Membership.nodeIds (h.shared i)
      have hb := h.broadcast (p := p) fun hp q hq hqid hqround => by
        rw [hroot]
        exact hok (by rw [hmem, ← hid]; exact hp) q hq (hqid.trans hid) (hqround.trans hround)
      refine hb.setNode (i := i) (Node.recordProposalSignature_frame _ _ _).2 ?_
      rw [← hmem]
      refine recordProposalSignature_recorded (List.mem_append_right _ List.mem_cons_self) ?_
      rw [hmem]
      exact hb.rows i
    · rename_i n err hcall
      obtain rfl := Node.proposeLocalCheckpoint_error hcall
      exact h.same (.refl _)
  | deliver i k now =>
    unfold Cluster.step
    dsimp only
    split
    · rename_i p hp
      have hmem : (c.nodes i).membershipNodeIds = membership.nodeIds :=
        congrArg Membership.nodeIds (h.shared i)
      refine h.setNode ?_ ?_
      · rcases Node.ingestCheckpointProposal_node (c.nodes i) p.toDict now with heq | ⟨q, -, heq⟩
        · rw [heq]
        · rw [heq]
          exact (Node.recordProposalSignature_frame _ _ _).2
      · rw [← hmem]
        refine ingestCheckpointProposal_recorded (List.mem_of_getElem? hp) ?_
        rw [hmem]
        exact h.rows i
    · exact h

end Steps

/-- **Checkpoint agreement.** In every run in which a member that proposes a
round again proposes the same root, no two nodes hold confirmed checkpoints
with different roots for one round. -/
theorem checkpoint_agreement {ι : Type} [DecidableEq ι] {membership : Membership}
    {hmacKey : String} {c : Cluster ι} (hc : Cluster.Start membership hmacKey c)
    {actions : List (Action ι)} (hok : Admits Cluster.step Cluster.SameRootAgain c actions) {i j : ι}
    {r : Int} {root root' : String} (hi : (run Cluster.step c actions).Confirmed i r root)
    (hj : (run Cluster.step c actions).Confirmed j r root') : root = root' :=
  (run_invariant step_inv hc.inv hok).agree hi hj

/-! ## Three nodes -/

section Trio

inductive Peer where
  | a | b | c
  deriving DecidableEq

def trio : Membership := ⟨["a", "b", "c"].map (⟨·, "", "node", true⟩), "h"⟩

/-- A node of the trio with an empty store. -/
def fresh (id : String) : Node := { config := { nodeId := id, hmacKey := "k" }, membership := trio }

/-- Three nodes and what they have broadcast. -/
def three (x y z : Node) (sent : List CheckpointProposal) : Cluster Peer where
  nodes
    | .a => x
    | .b => y
    | .c => z
  sent := sent

theorem three_start : Cluster.Start trio "k" (three (fresh "a") (fresh "b") (fresh "c") []) := by
  refine ⟨fun i => ?_, fun i => ?_, fun i => ?_, rfl⟩ <;> cases i <;> rfl

theorem three_setNode (x y z n : Node) (sent : List CheckpointProposal) :
    (three x y z sent).setNode .a n = three n y z sent ∧
    (three x y z sent).setNode .b n = three x n z sent ∧
    (three x y z sent).setNode .c n = three x y n sent := by
  refine ⟨?_, ?_, ?_⟩ <;>
    (unfold Cluster.setNode three; congr 1; funext i; cases i <;> rfl)

def hops : List Hop := ["a", "b", "c"].map (⟨some ·, some (.fin 1)⟩)

def early : List (Envelope × Flt) :=
  [(⟨Event.linked "a0" "a" [], []⟩, .fin 0), (⟨Event.linked "b0" "b" ["a0"], []⟩, .fin 0),
    (⟨Event.linked "c0" "c" ["a0"], []⟩, .fin 0)]

/-- The hops that date `a0`, and an event that triggers the next pass. -/
def late : List (Envelope × Flt) :=
  [(⟨Event.linked "a0" "a" [], hops⟩, .fin 0), (⟨Event.linked "a1" "a" ["a0"], []⟩, .fin 0)]

/-- `a0` as its leaf shows it, without and with a timestamp. -/
def undated : Event := { Event.linked "a0" "a" [] with roundReceived := some 0 }

def dated : Event := { undated with consensusTs := some (.fin 1) }

theorem roots_ne : computeMerkleRoot [undated] ≠ computeMerkleRoot [dated] := by
  rw [computeMerkleRoot_singleton, computeMerkleRoot_singleton]
  intro h
  have hchars := String.ofList_injective h
  revert hchars
  decide +kernel

theorem root_of_leaf {events : List Event} {e : Event}
    (h : events.map leafBody = [leafBody e]) : computeMerkleRoot events = computeMerkleRoot [e] := by
  obtain ⟨e', rfl⟩ : ∃ e', events = [e'] := List.length_eq_one_iff.1 (by
    have := congrArg List.length h
    rwa [List.length_map] at this)
  rw [computeMerkleRoot_singleton, computeMerkleRoot_singleton, List.singleton_inj.1 h]

/-- The row of a node that proposes first and hears of another signer. -/
theorem record_twice {n : Node} {p q : CheckpointProposal} (now now' : Flt)
    (h : n.storage.checkpoints = []) (hfit : fitsInt64 p.roundReceived = true)
    (hround : q.roundReceived = p.roundReceived) (hroot : q.merkleRoot = p.merkleRoot)
    (hq : isQuorumReached (Dict.set [(p.proposerNodeId, p.signature)] q.proposerNodeId q.signature)
      n.membershipNodeIds = true) :
    ∃ row, Dict.get ((n.recordProposalSignature p now).node.recordProposalSignature q
        now').node.storage.checkpoints p.roundReceived = some row ∧
      row.status = .confirmed ∧ row.merkleRoot = p.merkleRoot := by
  obtain ⟨_, hrec⟩ := Node.recordProposalSignature_signed (n := n) now hfit
    (fun row hrow => by rw [h] at hrow; cases hrow)
  rw [hrec]
  set row := Node.signedRow (Dict.get n.storage.checkpoints p.roundReceived) p
    n.membershipNodeIds now
  obtain ⟨t, hget⟩ := DAGStorage.upsertCheckpoint_get n.storage p.roundReceived row
  obtain ⟨_, hrec'⟩ := Node.recordProposalSignature_signed now'
    (n := { n with storage := n.storage.upsertCheckpoint p.roundReceived row }) (p := q) (by rw [hround]; exact hfit)
    (fun row' hrow' => by
      rw [hround, hget] at hrow'
      obtain rfl := Option.some.inj hrow'
      exact hroot.symm)
  rw [hrec', hround, hget]
  obtain ⟨t', hget'⟩ := DAGStorage.upsertCheckpoint_get (n.storage.upsertCheckpoint p.roundReceived row)
    p.roundReceived (Node.signedRow (some { row with createdAt := t }) q n.membershipNodeIds now')
  have hrow : row.signatures = [(p.proposerNodeId, p.signature)] := by
    show Dict.set (((Dict.get n.storage.checkpoints _).map _).getD []) _ _ = _
    rw [h]; rfl
  refine ⟨_, hget', ?_, hroot⟩
  show (if isQuorumReached (Dict.set row.signatures _ _) _ = true then _ else _) = _
  rw [hrow, if_pos hq]

/-- A node after it has proposed round zero. -/
def proposed (n : Node) : Node := (n.recordProposalSignature (n.localProposal 0) (.fin 1)).node

theorem proposed_eq {n : Node} (h : n.storage.checkpoints = []) :
    ∃ row, row.merkleRoot = computeMerkleRoot (n.eventsUpToRoundReceived 0) ∧
      proposed n = n.withCheckpoints [(0, row)] := by
  obtain ⟨_, hrec⟩ := Node.recordProposalSignature_signed (n := n) (.fin 1)
    (p := n.localProposal 0) rfl (fun row hrow => by rw [h] at hrow; cases hrow)
  refine ⟨Node.signedRow none (n.localProposal 0) n.membershipNodeIds (.fin 1), rfl, ?_⟩
  unfold proposed
  rw [hrec]
  unfold DAGStorage.upsertCheckpoint
  dsimp only
  rw [h]
  rfl

/-- The nodes after `early`. -/
def warm (id : String) : Node := ((fresh id).ingestEnvelopes early).node

/-- The row of a witness of round zero. -/
def witnessRow (e : Event) (roundReceived : Option Int) : EventRow :=
  ⟨{ e with round := some 0, roundReceived := roundReceived, isWitness := true }, .fin 0⟩

def warmStore : DAGStorage where
  events := [witnessRow (Event.linked "a0" "a" []) (some 0),
    witnessRow (Event.linked "b0" "b" ["a0"]) none, witnessRow (Event.linked "c0" "c" ["a0"]) none]
  envelopes := [("a0", []), ("b0", []), ("c0", [])]
  edges := [("a0", "b0"), ("a0", "c0")]

theorem warm_a : warm "a" = { fresh "a" with storage := warmStore } := by rfl

theorem warm_b : warm "b" = { fresh "b" with storage := warmStore } := by rfl

/-- The first node after it has proposed and ingested `late`. -/
def warmer : Node := ((proposed (warm "a")).ingestEnvelopes late).node

/-- The third node after `early` and `late`. -/
def cold : Node := ((fresh "c").ingestEnvelopes (early ++ late)).node

theorem withCheckpoints_covered (n : Node) (table : Dict Int CheckpointRow) (r : Int) :
    (n.withCheckpoints table).eventsUpToRoundReceived r = n.eventsUpToRoundReceived r := rfl

theorem withCheckpoints_config (n : Node) (table : Dict Int CheckpointRow) :
    (n.withCheckpoints table).config = n.config := rfl

theorem withCheckpoints_table (n : Node) (table : Dict Int CheckpointRow) :
    (n.withCheckpoints table).storage.checkpoints = table := rfl

theorem warmer_eq : ∃ row, row.merkleRoot = computeMerkleRoot [undated] ∧
    warmer.storage.checkpoints = [(0, row)] ∧ warmer.config = (fresh "a").config ∧
    (warmer.eventsUpToRoundReceived 0).map leafBody = [leafBody dated] := by
  obtain ⟨row, hroot, heq⟩ := proposed_eq (n := warm "a") rfl
  have hcov : ((warm "a").eventsUpToRoundReceived 0).map leafBody = [leafBody undated] := by
    rw [warm_a]; rfl
  rw [root_of_leaf hcov] at hroot
  have hnode : warmer = ((warm "a").ingestEnvelopes late).node.withCheckpoints [(0, row)] := by
    unfold warmer
    rw [heq, Node.ingestEnvelopes_with]
  rw [warm_a] at hnode
  refine ⟨row, hroot, ?_, ?_, ?_⟩
  · rw [hnode, withCheckpoints_table]
  · rw [hnode, withCheckpoints_config, (Node.ingestEnvelopes_same _ _).config]
  · rw [hnode, withCheckpoints_covered]
    rfl

theorem cold_covered : (cold.eventsUpToRoundReceived 0).map leafBody = [leafBody dated] := by
  rfl

theorem step_propose {ι : Type} [DecidableEq ι] {c : Cluster ι} {i : ι} {e : Event}
    (hkey : (c.nodes i).config.hmacKey = "k")
    (hev : ((c.nodes i).eventsUpToRoundReceived 0).map leafBody = [leafBody e]) :
    c.step (.propose i 0 (.fin 1)) =
      { c.setNode i (proposed (c.nodes i)) with sent := c.sent ++ [(c.nodes i).localProposal 0] } := by
  unfold Cluster.step
  dsimp only
  rw [Node.proposeLocalCheckpoint_eq (by decide) (by decide) (by rw [hkey]; decide)
    (fun hnil => by rw [hnil] at hev; cases hev)]
  rfl

theorem step_deliver {ι : Type} [DecidableEq ι] {c : Cluster ι} {i : ι} {k : Nat} {n : Node}
    (hk : c.sent[k]? = some (n.localProposal 0))
    (hkey : (c.nodes i).config.hmacKey = n.config.hmacKey) :
    c.step (.deliver i k (.fin 1)) =
      c.setNode i ((c.nodes i).recordProposalSignature (n.localProposal 0) (.fin 1)).node := by
  unfold Cluster.step
  dsimp only
  rw [hk]
  dsimp only
  rw [Node.ingestCheckpointProposal_honest (by rw [hkey]; rfl)]

theorem three_ingest (x y z : Node) (sent : List CheckpointProposal)
    (envelopes : List (Envelope × Flt)) :
    (three x y z sent).step (.ingest .a envelopes) =
      three (x.ingestEnvelopes envelopes).node y z sent ∧
    (three x y z sent).step (.ingest .b envelopes) =
      three x (y.ingestEnvelopes envelopes).node z sent ∧
    (three x y z sent).step (.ingest .c envelopes) =
      three x y (z.ingestEnvelopes envelopes).node sent :=
  ⟨(three_setNode _ _ _ _ _).1, (three_setNode _ _ _ _ _).2.1, (three_setNode _ _ _ _ _).2.2⟩

theorem three_propose (x y z : Node) (sent : List CheckpointProposal) {n : Node} {e : Event}
    (hkey : n.config.hmacKey = "k")
    (hev : (n.eventsUpToRoundReceived 0).map leafBody = [leafBody e]) :
    (three n y z sent).step (.propose .a 0 (.fin 1)) =
      three (proposed n) y z (sent ++ [n.localProposal 0]) ∧
    (three x n z sent).step (.propose .b 0 (.fin 1)) =
      three x (proposed n) z (sent ++ [n.localProposal 0]) ∧
    (three x y n sent).step (.propose .c 0 (.fin 1)) =
      three x y (proposed n) (sent ++ [n.localProposal 0]) := by
  refine ⟨?_, ?_, ?_⟩
  · rw [step_propose hkey hev, (three_setNode _ _ _ _ _).1]; rfl
  · rw [step_propose hkey hev, (three_setNode _ _ _ _ _).2.1]; rfl
  · rw [step_propose hkey hev, (three_setNode _ _ _ _ _).2.2]; rfl

/-- A node after it has heard of another's proposal. -/
def heard (n sender : Node) : Node :=
  (n.recordProposalSignature (sender.localProposal 0) (.fin 1)).node

theorem three_deliver (x y z sender : Node) (sent : List CheckpointProposal) {k : Nat} {n : Node}
    (hk : sent[k]? = some (sender.localProposal 0))
    (hkey : n.config.hmacKey = sender.config.hmacKey) :
    (three n y z sent).step (.deliver .a k (.fin 1)) = three (heard n sender) y z sent ∧
    (three x n z sent).step (.deliver .b k (.fin 1)) = three x (heard n sender) z sent ∧
    (three x y n sent).step (.deliver .c k (.fin 1)) = three x y (heard n sender) sent := by
  refine ⟨?_, ?_, ?_⟩
  · rw [step_deliver hk hkey, (three_setNode _ _ _ _ _).1]; rfl
  · rw [step_deliver hk hkey, (three_setNode _ _ _ _ _).2.1]; rfl
  · rw [step_deliver hk hkey, (three_setNode _ _ _ _ _).2.2]; rfl

theorem proposed_config (n : Node) : (proposed n).config = n.config :=
  (Node.recordProposalSignature_frame _ _ _).1

/-- Two nodes propose one root, and the second hears of the first. -/
def settled : List (Action Peer) :=
  [.ingest .a early, .propose .a 0 (.fin 1), .ingest .b early, .propose .b 0 (.fin 1),
    .deliver .b 0 (.fin 1)]

/-- Then the first proposes again, and the third hears of it. -/
def disputed : List (Action Peer) := settled ++
  [.ingest .a late, .propose .a 0 (.fin 1), .ingest .c (early ++ late), .propose .c 0 (.fin 1),
    .deliver .c 2 (.fin 1)]

theorem warm_a_covered : ((warm "a").eventsUpToRoundReceived 0).map leafBody = [leafBody undated] := by
  rw [warm_a]; rfl

theorem warm_b_covered : ((warm "b").eventsUpToRoundReceived 0).map leafBody = [leafBody undated] := by
  rw [warm_b]; rfl

theorem run_settled : run Cluster.step (three (fresh "a") (fresh "b") (fresh "c") []) settled =
    three (proposed (warm "a")) (heard (proposed (warm "b")) (warm "a")) (fresh "c")
      [(warm "a").localProposal 0, (warm "b").localProposal 0] := by
  have ha : (warm "a").config.hmacKey = "k" := by rw [warm_a]; rfl
  have hb : (warm "b").config.hmacKey = "k" := by rw [warm_b]; rfl
  unfold run settled
  rw [List.foldl_cons, (three_ingest _ _ _ _ _).1, ← warm]
  rw [List.foldl_cons, (three_propose (fresh "a") _ _ _ ha warm_a_covered).1]
  rw [List.foldl_cons, (three_ingest _ _ _ _ _).2.1, ← warm]
  rw [List.foldl_cons, (three_propose _ (fresh "b") _ _ hb warm_b_covered).2.1]
  rw [List.foldl_cons, (three_deliver _ (fresh "b") _ (warm "a") _ rfl
    (by rw [proposed_config, hb, ha])).2.1]
  rfl

theorem run_disputed : run Cluster.step (three (fresh "a") (fresh "b") (fresh "c") []) disputed =
    three (proposed warmer) (heard (proposed (warm "b")) (warm "a")) (heard (proposed cold) warmer)
      [(warm "a").localProposal 0, (warm "b").localProposal 0, warmer.localProposal 0,
        cold.localProposal 0] := by
  obtain ⟨-, -, -, hconfig, hcov⟩ := warmer_eq
  have ha : warmer.config.hmacKey = "k" := by rw [hconfig]; rfl
  have hc : cold.config.hmacKey = "k" := by
    unfold cold
    rw [(Node.ingestEnvelopes_same _ _).config]
    rfl
  have hrun := run_settled
  unfold run at hrun ⊢
  unfold disputed
  rw [List.foldl_append, hrun]
  rw [List.foldl_cons, (three_ingest _ _ _ _ _).1, ← warmer]
  rw [List.foldl_cons, (three_propose (fresh "a") _ _ _ ha hcov).1]
  rw [List.foldl_cons, (three_ingest _ _ _ _ _).2.2, ← cold]
  rw [List.foldl_cons, (three_propose _ _ (fresh "c") _ hc cold_covered).2.2]
  rw [List.foldl_cons, (three_deliver _ _ (fresh "c") warmer _ rfl
    (by rw [proposed_config, hc, ha])).2.2]
  rfl

theorem localProposal_root {n : Node} {e : Event}
    (h : (n.eventsUpToRoundReceived 0).map leafBody = [leafBody e]) :
    (n.localProposal 0).merkleRoot = computeMerkleRoot [e] := root_of_leaf h

/-- Two signers of the trio are a quorum. -/
theorem trio_quorum (s s' : String) :
    isQuorumReached (Dict.set [("b", s)] "a" s') trio.nodeIds = true ∧
    isQuorumReached (Dict.set [("c", s)] "a" s') trio.nodeIds = true ∧
    isQuorumReached (Dict.set [("a", s)] "b" s') trio.nodeIds = true := by
  have hkeys : ∀ x y : String, x ≠ y → Dict.keys (Dict.set [(x, s)] y s') = [x, y] := by
    intro x y hxy
    simp [Dict.set, Dict.keys, hxy]
  have key : ∀ x y : String, x ≠ y → isQuorumReached [(x, ""), (y, "")] trio.nodeIds = true →
      isQuorumReached (Dict.set [(x, s)] y s') trio.nodeIds = true := by
    intro x y hxy
    refine isQuorumReached_mono fun m hm => ?_
    rw [hkeys x y hxy]
    exact hm
  exact ⟨key _ _ (by decide) (by decide +kernel), key _ _ (by decide) (by decide +kernel),
    key _ _ (by decide) (by decide +kernel)⟩

theorem heard_confirmed {n sender : Node} {e : Event} (h : n.storage.checkpoints = [])
    (hn : (n.eventsUpToRoundReceived 0).map leafBody = [leafBody e])
    (hs : (sender.eventsUpToRoundReceived 0).map leafBody = [leafBody e])
    (hq : ∀ s s', isQuorumReached (Dict.set [(n.config.nodeId, s)] sender.config.nodeId s')
      n.membershipNodeIds = true) :
    ∃ row, Dict.get (heard (proposed n) sender).storage.checkpoints 0 = some row ∧
      row.status = .confirmed ∧ row.merkleRoot = computeMerkleRoot [e] := by
  obtain ⟨row, hrow, hst, hroot⟩ := record_twice (.fin 1) (.fin 1)
    (p := n.localProposal 0) (q := sender.localProposal 0) h rfl rfl
    (by rw [localProposal_root hs, localProposal_root hn]) (hq _ _)
  exact ⟨row, hrow, hst, hroot.trans (localProposal_root hn)⟩

theorem three_nodes (x y z : Node) (sent : List CheckpointProposal) :
    (three x y z sent).nodes .a = x ∧ (three x y z sent).nodes .b = y ∧
    (three x y z sent).nodes .c = z := ⟨rfl, rfl, rfl⟩

theorem three_confirmed {x y z : Node} {sent : List CheckpointProposal} {r : Int} {root : String}
    {i : Peer} {n : Node} (hi : (three x y z sent).nodes i = n)
    (h : ∃ row, Dict.get n.storage.checkpoints r = some row ∧ row.status = .confirmed ∧
      row.merkleRoot = root) : (three x y z sent).Confirmed i r root := by
  subst hi
  exact h

theorem warm_b_confirmed : ∃ row,
    Dict.get (heard (proposed (warm "b")) (warm "a")).storage.checkpoints 0 = some row ∧
      row.status = .confirmed ∧ row.merkleRoot = computeMerkleRoot [undated] := by
  have hb : (warm "b").storage.checkpoints = [] := by rw [warm_b]; rfl
  refine heard_confirmed hb warm_b_covered warm_a_covered fun s s' => ?_
  rw [warm_a, warm_b]
  exact (trio_quorum s s').1

theorem cold_confirmed : ∃ row,
    Dict.get (heard (proposed cold) warmer).storage.checkpoints 0 = some row ∧
      row.status = .confirmed ∧ row.merkleRoot = computeMerkleRoot [dated] := by
  obtain ⟨-, -, -, hconfig, hcov⟩ := warmer_eq
  have hc : Node.SameCheckpoints (fresh "c") cold := Node.ingestEnvelopes_same _ _
  refine heard_confirmed hc.checkpoints cold_covered hcov fun s s' => ?_
  have hm : cold.membershipNodeIds = trio.nodeIds := congrArg Membership.nodeIds hc.membership
  rw [hconfig, hc.config, hm]
  exact (trio_quorum s s').2.1

/-- Three nodes, and two roots confirmed for one round. -/
theorem confirmed_roots_differ : ∃ (membership : Membership) (hmacKey : String) (c : Cluster Peer)
    (actions : List (Action Peer)) (i j : Peer) (r : Int) (root root' : String),
    Cluster.Start membership hmacKey c ∧ (run Cluster.step c actions).Confirmed i r root ∧
      (run Cluster.step c actions).Confirmed j r root' ∧ root ≠ root' := by
  refine ⟨trio, "k", three (fresh "a") (fresh "b") (fresh "c") [], disputed, .b, .c, 0,
    computeMerkleRoot [undated], computeMerkleRoot [dated], three_start, ?_, ?_, roots_ne⟩
  · rw [run_disputed]
    exact three_confirmed (three_nodes _ _ _ _).2.1 warm_b_confirmed
  · rw [run_disputed]
    exact three_confirmed (three_nodes _ _ _ _).2.2 cold_confirmed

/-- Then the first hears of the second. -/
def exchanged : List (Action Peer) := settled ++ [.deliver .a 1 (.fin 1)]

theorem warm_config : (warm "a").config = (fresh "a").config ∧ (warm "b").config = (fresh "b").config :=
  ⟨(Node.ingestEnvelopes_same _ _).config, (Node.ingestEnvelopes_same _ _).config⟩

theorem run_exchanged : run Cluster.step (three (fresh "a") (fresh "b") (fresh "c") []) exchanged =
    three (heard (proposed (warm "a")) (warm "b")) (heard (proposed (warm "b")) (warm "a")) (fresh "c")
      [(warm "a").localProposal 0, (warm "b").localProposal 0] := by
  have hrun := run_settled
  unfold run at hrun ⊢
  unfold exchanged
  rw [List.foldl_append, hrun, List.foldl_cons, (three_deliver (fresh "a") _ _ (warm "b") _ rfl
    (by rw [proposed_config, warm_config.1, warm_config.2]; rfl)).1]
  rfl

theorem exchanged_admitted : Admits Cluster.step Cluster.SameRootAgain
    (three (fresh "a") (fresh "b") (fresh "c") []) exchanged := by
  have ha : (warm "a").config.hmacKey = "k" := by rw [warm_config.1]; rfl
  unfold exchanged settled
  refine ⟨trivial, ?_⟩
  rw [(three_ingest _ _ _ _ _).1, ← warm]
  refine ⟨fun _ p hp => absurd hp List.not_mem_nil, ?_⟩
  rw [(three_propose (fresh "a") _ _ _ ha warm_a_covered).1]
  refine ⟨trivial, ?_⟩
  rw [(three_ingest _ _ _ _ _).2.1, ← warm]
  refine ⟨fun _ p hp hid => ?_, trivial, trivial, trivial⟩
  rw [(three_nodes _ _ _ _).2.1, warm_config.2] at hid
  obtain rfl : p = (warm "a").localProposal 0 := List.mem_singleton.1 hp
  change (warm "a").config.nodeId = _ at hid
  rw [warm_config.1] at hid
  exact absurd hid (by decide)

theorem checkpoint_agreement_trio : ∃ root root',
    (run Cluster.step (three (fresh "a") (fresh "b") (fresh "c") []) exchanged).Confirmed .a 0 root ∧
    (run Cluster.step (three (fresh "a") (fresh "b") (fresh "c") []) exchanged).Confirmed .b 0 root' ∧
    root = root' := by
  have ha : (warm "a").storage.checkpoints = [] := by rw [warm_a]; rfl
  have hconf : (run Cluster.step (three (fresh "a") (fresh "b") (fresh "c") []) exchanged).Confirmed .a
      0 (computeMerkleRoot [undated]) := by
    rw [run_exchanged]
    refine three_confirmed (three_nodes _ _ _ _).1
      (heard_confirmed ha warm_a_covered warm_b_covered fun s s' => ?_)
    rw [warm_a, warm_b]
    exact (trio_quorum s s').2.2
  have hconf' : (run Cluster.step (three (fresh "a") (fresh "b") (fresh "c") []) exchanged).Confirmed .b
      0 (computeMerkleRoot [undated]) := by
    rw [run_exchanged]
    exact three_confirmed (three_nodes _ _ _ _).2.1 warm_b_confirmed
  exact ⟨_, _, hconf, hconf', checkpoint_agreement three_start exchanged_admitted hconf hconf'⟩

end Trio
end Mdrj.L5
