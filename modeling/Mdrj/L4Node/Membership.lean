import Mdrj.L4Node.Checkpoint

/-!
# Membership from the registry

The active membership is a snapshot of the peer registry. It is taken anew
by `reconfigure_consensus_membership`, which then recomputes consensus over
the whole store. The registry is an argument: the rows of `peers` after the
missing node ids have been asked for, and the role of the node itself.

Left out: the epoch of a snapshot, which nothing here reads.
-/
namespace Mdrj.L4
open Mdrj.Core Mdrj.L1 Mdrj.L2 Mdrj.L3

/-- A row of the registry, by the columns a snapshot reads.
mirrors mdrj/models.py:294-305 -/
structure PeerInfo where
  address : String
  nodeId : String := ""
  enabled : Bool := true
  role : String := "node"
  isSelf : Bool := false

/-- The registry as `reconfigure_consensus_membership` finds it. -/
structure Registry where
  peers : List PeerInfo
  currentRole : String := "node"

/-- The enabled peers with a node id, one entry for each id.
mirrors mdrj/node.py:607-625 -/
def peerEntries (peers : List PeerInfo) : List MembershipEntry :=
  peers.foldl (fun entries peer =>
    let nodeId := strip peer.nodeId
    if (!peer.enabled && !peer.isSelf) ∨ nodeId = "" ∨ nodeId ∈ entries.map MembershipEntry.nodeId then
      entries
    else entries ++ [⟨nodeId, peer.address, peer.role, peer.isSelf⟩]) []

/-- `sorted(entries, key=lambda item: item.node_id)`. -/
def sortedEntries (entries : List MembershipEntry) : List MembershipEntry :=
  entries.insertionSort fun a b => a.nodeId ≤ b.nodeId

/-- mirrors mdrj/consensus.py:179-200 -/
def membershipSnapshot (members : List MembershipEntry) : Membership :=
  let normalized := sortedEntries members
  ⟨normalized, Sha256.hexdigest (String.intercalate "::" (normalized.map MembershipEntry.nodeId))⟩

namespace Node

/-- mirrors mdrj/node.py:606-635 -/
def membershipEntriesFromRegistry (n : Node) (registry : Registry) : List MembershipEntry :=
  let entries := peerEntries registry.peers
  sortedEntries (if n.config.nodeId ∈ entries.map MembershipEntry.nodeId then entries
    else entries ++ [⟨n.config.nodeId, "self:" ++ n.config.nodeId, registry.currentRole, true⟩])

/-- The node with the snapshot of a registry for its membership. -/
def withRegistry (n : Node) (registry : Registry) : Node :=
  { n with membership := membershipSnapshot (n.membershipEntriesFromRegistry registry) }

/-- mirrors mdrj/node.py:679-688 -/
def reconfigureConsensusMembership (n : Node) (registry : Registry) : Call Membership :=
  match (n.withRegistry registry).recomputeConsensus with
  | ⟨n, .error err⟩ => ⟨n, .error err⟩
  | ⟨n, .ok ()⟩ => ⟨n, .ok n.membership⟩

theorem reconfigureConsensusMembership_node (n : Node) (registry : Registry) :
    (n.reconfigureConsensusMembership registry).node = (n.withRegistry registry).recomputeConsensus.node := by
  unfold reconfigureConsensusMembership
  split
  · rename_i h; rw [h]
  · rename_i h; rw [h]

/-- A snapshot leaves the tables alone but for the columns. -/
theorem reconfigureConsensusMembership_checkpoints (n : Node) (registry : Registry) :
    (n.reconfigureConsensusMembership registry).node.storage.checkpoints = n.storage.checkpoints := by
  rw [reconfigureConsensusMembership_node]
  exact (recomputeConsensus_same (n.withRegistry registry)).checkpoints

end Node
end Mdrj.L4
