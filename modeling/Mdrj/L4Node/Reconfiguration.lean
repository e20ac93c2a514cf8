import Mdrj.L4Node.Peers
import Mdrj.L4Node.SelfChain

/-!
# Reconfiguring the membership

The membership of consensus is a snapshot with an epoch. It is kept in the
database and in memory, is taken from the registry by
`reconfigure_consensus_membership`, and, when there is none at all, by the
first reader.

Results:
* `saved_members_iff`: the members saved are sorted and not repeated, and
  they are the node and its approved peers exactly when every other row that
  counts repeats an id of those.
* `membership_frozen`: a stored snapshot is what every later call reads until
  the next reconfiguration, which adds one to its epoch.

The `/status` answers of the peers are arguments, given to a hydration as a
whole: between it and the save nothing is awaited.
-/
namespace Mdrj.L4
open Mdrj.Core Mdrj.L1 Mdrj.L2 Mdrj.L3

/-! ## Hydration -/

/-- What asking a peer for its `/status` comes to. -/
inductive StatusAnswer where
  | failed                    -- no answer, not 2xx or not JSON
  | notObject                 -- JSON without `get`
  | nodeId (text : String)    -- `str(payload.get("node_id") or "")`

/-- The loop over the enabled peers; `false` when `payload.get` raises.
mirrors mdrj/node.py:640-658 -/
def hydrateLoop (status : String → StatusAnswer) (now : Flt) :
    PeerTable → List PeerRecord → PeerTable × Bool
  | table, [] => (table, true)
  | table, peer :: rest =>
    if peer.nodeId ≠ "" then hydrateLoop status now table rest
    else
      match status peer.address with
      | .failed => hydrateLoop status now table rest
      | .notObject => (table, false)
      | .nodeId text =>
        if strip text = "" then hydrateLoop status now table rest
        else
          hydrateLoop status now (table.updatePeer peer.address
            { nodeId := some (strip text), lastSeen := some now, healthy := some true }).1 rest

namespace PeerBook

/-- `status` is missing before the node has a session.
mirrors mdrj/node.py:637-659 -/
def hydratePeerNodeIds (b : PeerBook) (status : Option (String → StatusAnswer)) (now : Flt) :
    PeerBook × Bool :=
  match status with
  | none => (b, true)
  | some status =>
    match hydrateLoop status now b.table
      (b.table.listPeers.filter fun peer => !peer.isSelf && peer.enabled) with
    | (table, true) => (reloadPeersFromStorage { b with table := table }, true)
    | (table, false) => ({ b with table := table }, false)

/-- The registry as a snapshot reads it. -/
def registry (b : PeerBook) : Registry where
  peers := b.table.listPeers.map fun peer =>
    ⟨peer.address, peer.nodeId, peer.enabled, peer.role, peer.isSelf⟩
  currentRole := b.currentRole

end PeerBook

/-! ## Snapshots -/

/-- mirrors mdrj/consensus.py:179-200 -/
structure MembershipSnapshot where
  epoch : Int
  membership : Membership
  membershipSize : Nat

def epochSnapshot (epoch : Int) (members : List MembershipEntry) : MembershipSnapshot :=
  ⟨epoch, membershipSnapshot members, members.length⟩

/-- A node with its registry and its snapshots. -/
structure FullNode where
  node : Node
  book : PeerBook
  stored : Option MembershipSnapshot := none   -- the row of `consensus_state`
  memory : Option MembershipSnapshot := none   -- `_consensus_membership_snapshot`

inductive ReconfigureError where
  | attributeError
  | raised (err : PyError)

namespace FullNode

/-- mirrors mdrj/node.py:668-677 -/
def activeConsensusMembership (h : FullNode) : FullNode × MembershipSnapshot :=
  match h.memory.or h.stored with
  | some snapshot => ({ h with memory := some snapshot }, snapshot)
  | none =>
    let snapshot := epochSnapshot 1 (h.node.membershipEntriesFromRegistry h.book.registry)
    ({ h with stored := some snapshot, memory := some snapshot }, snapshot)

/-- mirrors mdrj/node.py:679-688 -/
def reconfigureConsensusMembership (h : FullNode) (status : Option (String → StatusAnswer))
    (now : Flt) : FullNode × Except ReconfigureError MembershipSnapshot :=
  match h.book.hydratePeerNodeIds status now with
  | (book, false) => ({ h with book := book }, .error .attributeError)
  | (book, true) =>
    let epoch := (h.stored.map MembershipSnapshot.epoch).getD 0 + 1
    let snapshot := epochSnapshot epoch (h.node.membershipEntriesFromRegistry book.registry)
    match (h.node.withRegistry book.registry).recomputeConsensus with
    | ⟨node, .error err⟩ => (⟨node, book, some snapshot, some snapshot⟩, .error (.raised err))
    | ⟨node, .ok ()⟩ => (⟨node, book, some snapshot, some snapshot⟩, .ok snapshot)

/-- mirrors mdrj/node.py:661-666 -/
def ensureConsensusMembershipSnapshot (h : FullNode) (status : Option (String → StatusAnswer))
    (now : Flt) : FullNode :=
  match h.stored with
  | some snapshot => { h with memory := some snapshot }
  | none => (h.reconfigureConsensusMembership status now).1

end FullNode

/-! ## The members of a snapshot -/

theorem peerEntries_gathers : Gathers MembershipEntry.nodeId
    (fun peer : PeerInfo => ⟨strip peer.nodeId, peer.address, peer.role, peer.isSelf⟩)
    (fun peer => (!peer.enabled && !peer.isSelf) ∨ strip peer.nodeId = "") fun entries peer =>
      let nodeId := strip peer.nodeId
      if (!peer.enabled && !peer.isSelf) ∨ nodeId = "" ∨ nodeId ∈ entries.map MembershipEntry.nodeId then
        entries
      else entries ++ [⟨nodeId, peer.address, peer.role, peer.isSelf⟩] :=
  ⟨fun h => if_pos (or_assoc.1 h), fun h => if_neg fun hskip => h (or_assoc.2 hskip)⟩

theorem mem_peerEntries (peers : List PeerInfo) (id : String) :
    id ∈ (peerEntries peers).map MembershipEntry.nodeId ↔ id ≠ "" ∧ ∃ peer ∈ peers,
      (peer.enabled = true ∨ peer.isSelf = true) ∧ strip peer.nodeId = id := by
  have hon : ∀ peer : PeerInfo, ¬ (!peer.enabled && !peer.isSelf) = true ↔
      peer.enabled = true ∨ peer.isSelf = true := by
    intro peer
    cases peer.enabled <;> cases peer.isSelf <;> simp
  refine (peerEntries_gathers.mem_foldl peers).trans ⟨?_, ?_⟩
  · rintro (hid | ⟨peer, hpeer, hkeep, rfl⟩)
    · exact absurd hid List.not_mem_nil
    · rw [not_or, hon] at hkeep
      exact ⟨hkeep.2, peer, hpeer, hkeep.1, rfl⟩
  · rintro ⟨hne, peer, hpeer, henabled, rfl⟩
    exact .inr ⟨peer, hpeer, not_or.2 ⟨(hon peer).2 henabled, hne⟩, rfl⟩

theorem nodup_peerEntries (peers : List PeerInfo) :
    ((peerEntries peers).map MembershipEntry.nodeId).Nodup :=
  peerEntries_gathers.nodup_foldl peers List.nodup_nil

section Entries
variable (n : Node) (reg : Registry)

theorem sortedEntries_perm (entries : List MembershipEntry) : (sortedEntries entries).Perm entries :=
  List.perm_insertionSort _ entries

/-- The members of a snapshot: the node, and the peers that are enabled or its
own. -/
theorem mem_membershipEntries (id : String) :
    id ∈ (n.membershipEntriesFromRegistry reg).map MembershipEntry.nodeId ↔
      id = n.config.nodeId ∨ id ≠ "" ∧ ∃ peer ∈ reg.peers,
        (peer.enabled = true ∨ peer.isSelf = true) ∧ strip peer.nodeId = id := by
  unfold Node.membershipEntriesFromRegistry
  rw [((sortedEntries_perm _).map _).mem_iff, ← mem_peerEntries]
  split
  · rename_i hown
    exact ⟨.inr, fun h => h.elim (fun e => e ▸ hown) fun h => h⟩
  · simp [or_comm]

theorem nodup_membershipEntries :
    ((n.membershipEntriesFromRegistry reg).map MembershipEntry.nodeId).Nodup := by
  have hnd := nodup_peerEntries reg.peers
  unfold Node.membershipEntriesFromRegistry
  rw [((sortedEntries_perm _).map _).nodup_iff]
  split
  · exact hnd
  · rename_i hown
    rw [List.map_append, List.map_singleton, ← List.concat_eq_append]
    exact (List.nodup_concat _ _).2 ⟨hown, hnd⟩

theorem sorted_sortedEntries (entries : List MembershipEntry) :
    ((sortedEntries entries).map MembershipEntry.nodeId).Pairwise (· ≤ ·) := by
  rw [List.pairwise_map]
  unfold sortedEntries
  apply pairwise_insertionSort_of
  · intro a _ b _
    exact String.le_total a.nodeId b.nodeId
  · intro a _ b _ c _
    exact String.le_trans

end Entries

/-- A row the operator let in. -/
def PeerRow.Approved (row : PeerRow) : Prop := row.enabled = true ∧ row.approvalStatus = .approved

/-- A row that `_membership_entries_from_registry` counts. -/
def PeerRow.Counted (row : PeerRow) : Prop := row.enabled = true ∨ row.isSelf = true

namespace PeerBook

theorem exists_registry_peer {b : PeerBook} {id : String} :
    (∃ peer ∈ b.registry.peers, (peer.enabled = true ∨ peer.isSelf = true) ∧ strip peer.nodeId = id) ↔
      ∃ a row, b.table.get a = some row ∧ row.Counted ∧ strip row.nodeId = id := by
  simp only [registry, List.mem_map, PeerTable.mem_listPeers]
  constructor
  · intro h
    obtain ⟨_, ⟨_, ⟨a, row, hget, rfl⟩, rfl⟩, hon, hid⟩ := h
    exact ⟨a, row, hget, by simpa [PeerRow.Counted] using hon, hid⟩
  · intro h
    obtain ⟨a, row, hget, hon, hid⟩ := h
    exact ⟨_, ⟨_, ⟨a, row, hget, rfl⟩, rfl⟩, by simpa [PeerRow.Counted] using hon, hid⟩

/-- The trimmed ids of the enabled and approved rows. -/
def ApprovedId (b : PeerBook) (id : String) : Prop :=
  id ≠ "" ∧ ∃ a row, b.table.get a = some row ∧ row.Approved ∧ strip row.nodeId = id

/-- The members are the node and the approved peers, each once and by id. -/
def ExactMembers (b : PeerBook) (own : String) (ids : List String) : Prop :=
  ids.Pairwise (· ≤ ·) ∧ ids.Nodup ∧ ∀ id, id ∈ ids ↔ id = own ∨ b.ApprovedId id

/-- A row that counts without being approved adds no id: it has none, or one
of the node or of an approved row. -/
def NoStrays (b : PeerBook) (own : String) : Prop :=
  ∀ a row, b.table.get a = some row → row.Counted → ¬ row.Approved → strip row.nodeId ≠ "" →
    strip row.nodeId = own ∨ b.ApprovedId (strip row.nodeId)

end PeerBook

namespace FullNode
variable (h : FullNode) (status : Option (String → StatusAnswer)) (now : Flt)

/-- A reconfiguration whose hydration returns installs the snapshot of the
registry that is left. -/
theorem reconfigure_eq (hok : (h.book.hydratePeerNodeIds status now).2 = true) :
    ∃ node result, h.reconfigureConsensusMembership status now =
      (let book := (h.book.hydratePeerNodeIds status now).1
       let snapshot := epochSnapshot ((h.stored.map MembershipSnapshot.epoch).getD 0 + 1)
         (h.node.membershipEntriesFromRegistry book.registry)
       (⟨node, book, some snapshot, some snapshot⟩, result)) := by
  unfold reconfigureConsensusMembership
  split
  · rename_i hh; rw [hh] at hok; cases hok
  · rename_i book hh
    rw [hh]
    dsimp only
    split
    · exact ⟨_, _, rfl⟩
    · exact ⟨_, _, rfl⟩

/-- One whose hydration raises installs nothing. -/
theorem reconfigure_raised (hraise : (h.book.hydratePeerNodeIds status now).2 = false) :
    h.reconfigureConsensusMembership status now =
      ({ h with book := (h.book.hydratePeerNodeIds status now).1 }, .error .attributeError) := by
  have hpair : h.book.hydratePeerNodeIds status now = ((h.book.hydratePeerNodeIds status now).1, false) :=
    Prod.ext rfl hraise
  unfold reconfigureConsensusMembership
  rw [hpair]

/-- **Members saved.** After a hydration that returns, the members saved are
exactly the node and its approved peers when no row that counts is a stray. -/
theorem saved_members_iff (hok : (h.book.hydratePeerNodeIds status now).2 = true) :
    ∃ snapshot, (h.reconfigureConsensusMembership status now).1.stored = some snapshot ∧
      ((h.book.hydratePeerNodeIds status now).1.ExactMembers h.node.config.nodeId
        (snapshot.membership.members.map MembershipEntry.nodeId) ↔
      (h.book.hydratePeerNodeIds status now).1.NoStrays h.node.config.nodeId) := by
  obtain ⟨node, result, heq⟩ := h.reconfigure_eq status now hok
  rw [heq]
  refine ⟨_, rfl, ?_⟩
  generalize (h.book.hydratePeerNodeIds status now).1 = b
  have hperm := (sortedEntries_perm (h.node.membershipEntriesFromRegistry b.registry)).map
    MembershipEntry.nodeId
  have hmem : ∀ id, id ∈ (sortedEntries (h.node.membershipEntriesFromRegistry b.registry)).map
      MembershipEntry.nodeId ↔ id = h.node.config.nodeId ∨ id ≠ "" ∧
        ∃ a row, b.table.get a = some row ∧ row.Counted ∧ strip row.nodeId = id := by
    intro id
    rw [hperm.mem_iff, mem_membershipEntries, PeerBook.exists_registry_peer]
  unfold PeerBook.ExactMembers PeerBook.NoStrays
  constructor
  · intro hexact a row hget hcounted hstray hblank
    exact (hexact.2.2 _).1 ((hmem _).2 (.inr ⟨hblank, a, row, hget, hcounted, rfl⟩))
  · intro hno
    refine ⟨sorted_sortedEntries _, hperm.nodup_iff.2 (nodup_membershipEntries _ _), fun id => ?_⟩
    refine (hmem id).trans ⟨fun hid => ?_, fun hid => ?_⟩
    · rcases hid with hid | ⟨hne, a, row, hget, hcounted, rfl⟩
      · exact .inl hid
      · by_cases happr : row.Approved
        · exact .inr ⟨hne, a, row, hget, happr, rfl⟩
        · exact hno a row hget hcounted happr hne
    · rcases hid with hid | ⟨hne, a, row, hget, happr, rfl⟩
      · exact .inl hid
      · exact .inr ⟨hne, a, row, hget, .inl happr.1, rfl⟩

/-- A node whose registry holds itself and the rows of some actions. -/
def withPeers (actions : List PeerBook.Action) : FullNode where
  node := { config := { nodeId := "n1" }, membership := ⟨[], ""⟩ }
  book := run PeerBook.step (.init { nodeId := "n1" } .empty (.fin 0)) actions

/-- A peer found by discovery, which no operator has approved. -/
def discoveredOnly : FullNode := withPeers [.discovered "10.0.0.2:9000" "n2" "mdns" (.fin 1)]

theorem unapproved_peer_is_member : ¬ ∀ (h : FullNode) (status : Option (String → StatusAnswer))
    (now : Flt), (h.book.hydratePeerNodeIds status now).2 = true →
    ∃ snapshot, (h.reconfigureConsensusMembership status now).1.stored = some snapshot ∧
      (h.book.hydratePeerNodeIds status now).1.ExactMembers h.node.config.nodeId
        (snapshot.membership.members.map MembershipEntry.nodeId) := by
  intro hall
  obtain ⟨snapshot, hs, -, -, hmem⟩ := hall discoveredOnly none (.fin 2) rfl
  have hids : ((discoveredOnly.reconfigureConsensusMembership none (.fin 2)).1.stored.map fun s =>
      s.membership.members.map MembershipEntry.nodeId) = some ["n1", "n2"] := by decide +kernel
  rw [hs, Option.map_some, Option.some.injEq] at hids
  rw [hids] at hmem
  rcases (hmem "n2").1 (by decide) with hown | ⟨-, a, row, hget, happr, hid⟩
  · revert hown; decide +kernel
  · have hrows : ∀ p ∈ discoveredOnly.book.table.rows,
        ¬ (p.2.enabled = true ∧ p.2.approvalStatus = .approved ∧ strip p.2.nodeId = "n2") := by
      decide +kernel
    exact hrows (a, row) (Table.mem_rows.2 hget) ⟨happr.1, happr.2, hid⟩

/-- A peer entered by hand becomes a member. -/
theorem saved_members_registered :
    let h := withPeers [.register { address := "10.0.0.2:9000", nodeId := "n2" } (.fin 1)]
    ∃ snapshot, (h.reconfigureConsensusMembership none (.fin 2)).1.stored = some snapshot ∧
      h.book.ExactMembers "n1" (snapshot.membership.members.map MembershipEntry.nodeId) := by
  intro h
  obtain ⟨snapshot, hs, hiff⟩ := h.saved_members_iff none (.fin 2) rfl
  refine ⟨snapshot, hs, hiff.2 ?_⟩
  intro a row hget _ hstray
  have hrows : ∀ p ∈ h.book.table.rows, p.2.enabled = true ∧ p.2.approvalStatus = .approved := by
    decide +kernel
  exact absurd (hrows (a, row) (Table.mem_rows.2 hget)) hstray

end FullNode

/-! ## The calls of a node -/

namespace Node

/-- `emit_event` comes to its recompute when the event can be stored. -/
def emitRecomputes (n : Node) (cls : EventClass) (payload : Json) (ts now : Flt) (pick : Nat) : Bool :=
  (n.storage.storeEnvelope ⟨n.nextEvent cls payload ts pick, [⟨some n.config.nodeId, some ts⟩]⟩
    none now).isOk

/-- `ingest_envelopes` comes to its recompute when something was new. -/
def ingestRecomputes (n : Node) (envelopes : List (Envelope × Flt)) : Bool :=
  match (ingestLoop n [] envelopes).result with
  | .ok newIds => !newIds.isEmpty
  | .error _ => false

def clearRecomputes (n : Node) (identity : List (String × Json)) (ts now : Flt) : Bool :=
  (bootstrapGenesis { n with storage := n.storage.clearEvents, vectorClock := [], anchors := [] }
    identity ts now).result.isOk

end Node

namespace FullNode

/-- A call on the graph; one that comes to a recompute reads the membership
there. -/
def graph (h : FullNode) (recomputes : Bool) (op : Node → Node) : FullNode :=
  if recomputes then
    let (h, snapshot) := h.activeConsensusMembership
    { h with node := op { h.node with membership := snapshot.membership } }
  else { h with node := op h.node }

/-- A new process on the same database, with another list of peers in its
configuration.
mirrors mdrj/node.py:79-111, 141 and 212-217 -/
def restart (h : FullNode) (peers : List String) (identity : List (String × Json)) (ts now : Flt)
    (status : String → StatusAnswer) : FullNode :=
  let h := { h with
    book := .init { h.book.config with peers := peers } h.book.table now
    memory := none }
  match h.node.restart identity ts now with
  | ⟨node, .error _⟩ => { h with node := node }
  | ⟨node, .ok ()⟩ =>
    match h.book.hydratePeerNodeIds (some status) now with
    | (book, false) => { h with node := node, book := book }
    | (book, true) =>
      ensureConsensusMembershipSnapshot { h with node := node, book := book } (some status) now

inductive Act where
  | peers (action : PeerBook.Action)
  | health (address : String) (now : Flt) (healthy : Bool)
  | identified (address nodeId : String) (now : Flt)
  | emit (cls : EventClass) (payload : Json) (ts now : Flt) (pick : Nat)
  | ingest (envelopes : List (Envelope × Flt))
  | clear (identity : List (String × Json)) (ts now : Flt)
  | retention (now : Flt)
  | restart (peers : List String) (identity : List (String × Json)) (ts now : Flt)
      (status : String → StatusAnswer)
  | read
  | reconfigure (status : Option (String → StatusAnswer)) (now : Flt)

def step (h : FullNode) : Act → FullNode
  | .peers action => { h with book := h.book.step action }
  | .health address now healthy =>
    { h with book := { h.book with table := h.book.table.upsertPeer address now healthy } }
  | .identified address nodeId now =>
    { h with book := { h.book with table := (h.book.table.updatePeer address
        { nodeId := some nodeId, lastSeen := some now, healthy := some true }).1 } }
  | .emit cls payload ts now pick =>
    h.graph (h.node.emitRecomputes cls payload ts now pick) fun n =>
      (n.emitEvent cls payload ts now pick).node
  | .ingest envelopes =>
    h.graph (h.node.ingestRecomputes envelopes) fun n => (n.ingestEnvelopes envelopes).node
  | .clear identity ts now =>
    h.graph (h.node.clearRecomputes identity ts now) fun n => (n.clearEventsLocal identity ts now).node
  | .retention now => h.graph false fun n => (n.runRetentionOnce now).node
  | .restart peers identity ts now status => h.restart peers identity ts now status
  | .read => h.activeConsensusMembership.1
  | .reconfigure status now => (h.reconfigureConsensusMembership status now).1

def Act.isReconfigure : Act → Bool
  | .reconfigure _ _ => true
  | _ => false

/-- The copy in memory is missing or the stored one. -/
def Coherent (h : FullNode) : Prop := h.memory = none ∨ h.memory = h.stored

/-- The snapshot in store, and no other in memory. -/
structure Holds (h : FullNode) (snapshot : MembershipSnapshot) : Prop where
  stored : h.stored = some snapshot
  coherent : h.Coherent

variable {h : FullNode} {snapshot : MembershipSnapshot}

theorem Holds.active (hh : h.Holds snapshot) :
    h.activeConsensusMembership = ({ h with memory := some snapshot }, snapshot) := by
  have hor : h.memory.or h.stored = some snapshot := by
    rw [hh.stored]
    rcases hh.coherent with hm | hm
    · rw [hm, Option.none_or]
    · rw [hm, hh.stored, Option.some_or]
  unfold activeConsensusMembership
  rw [hor]

theorem active_coherent (hc : h.Coherent) : h.activeConsensusMembership.1.Coherent := by
  unfold activeConsensusMembership
  split
  · rename_i snapshot hor
    rcases hc with hm | hm
    · rw [hm, Option.none_or] at hor
      exact .inr hor.symm
    · rw [hm, Option.or_self] at hor
      exact .inr hor.symm
  · exact .inr rfl

theorem graph_coherent (hc : h.Coherent) (recomputes : Bool) (op : Node → Node) :
    (h.graph recomputes op).Coherent := by
  unfold graph
  split
  · exact active_coherent hc
  · exact hc

theorem graph_stored (hh : h.Holds snapshot) (recomputes : Bool) (op : Node → Node) :
    (h.graph recomputes op).stored = some snapshot := by
  unfold graph
  rw [hh.active]
  split
  · exact hh.stored
  · exact hh.stored

theorem reconfigure_coherent (hc : h.Coherent) (status : Option (String → StatusAnswer)) (now : Flt) :
    (h.reconfigureConsensusMembership status now).1.Coherent := by
  cases hok : (h.book.hydratePeerNodeIds status now).2 with
  | true =>
    obtain ⟨node, result, heq⟩ := h.reconfigure_eq status now hok
    rw [heq]
    exact .inr rfl
  | false =>
    rw [h.reconfigure_raised status now hok]
    exact hc

theorem restart_coherent (peers : List String) (identity : List (String × Json)) (ts now : Flt)
    (status : String → StatusAnswer) : (h.restart peers identity ts now status).Coherent := by
  unfold restart
  dsimp only
  split
  · exact .inl rfl
  · split
    · exact .inl rfl
    · unfold ensureConsensusMembershipSnapshot
      split
      · rename_i hs
        exact .inr hs.symm
      · exact reconfigure_coherent (.inl rfl) _ _

theorem restart_stored (hs : h.stored = some snapshot) (peers : List String)
    (identity : List (String × Json)) (ts now : Flt) (status : String → StatusAnswer) :
    (h.restart peers identity ts now status).stored = some snapshot := by
  unfold restart
  dsimp only
  split
  · exact hs
  · split
    · exact hs
    · unfold ensureConsensusMembershipSnapshot
      split
      · exact hs
      · rename_i hnone
        rw [hs] at hnone
        cases hnone

theorem step_coherent (hc : h.Coherent) (act : Act) : (h.step act).Coherent := by
  cases act with
  | peers action => exact hc
  | health address now healthy => exact hc
  | identified address nodeId now => exact hc
  | emit cls payload ts now pick => exact graph_coherent hc _ _
  | ingest envelopes => exact graph_coherent hc _ _
  | clear identity ts now => exact graph_coherent hc _ _
  | retention now => exact graph_coherent hc _ _
  | restart peers identity ts now status => exact restart_coherent peers identity ts now status
  | read => exact active_coherent hc
  | reconfigure status now => exact reconfigure_coherent hc status now

/-- Only a reconfiguration replaces a stored snapshot. -/
theorem step_stored (hh : h.Holds snapshot) {act : Act} (hact : act.isReconfigure = false) :
    (h.step act).stored = some snapshot := by
  cases act with
  | peers action => exact hh.stored
  | health address now healthy => exact hh.stored
  | identified address nodeId now => exact hh.stored
  | emit cls payload ts now pick => exact graph_stored hh _ _
  | ingest envelopes => exact graph_stored hh _ _
  | clear identity ts now => exact graph_stored hh _ _
  | retention now => exact graph_stored hh _ _
  | restart peers identity ts now status => exact restart_stored hh.stored peers identity ts now status
  | read =>
    simp only [step, hh.active]
    exact hh.stored
  | reconfigure status now => cases hact

theorem run_coherent (hc : h.Coherent) (acts : List Act) : (run step h acts).Coherent :=
  run_always (I := Coherent) (fun _ act hc => step_coherent hc act) acts hc

theorem run_holds (hh : h.Holds snapshot) {acts : List Act}
    (hacts : ∀ act ∈ acts, act.isReconfigure = false) : (run step h acts).Holds snapshot :=
  run_kept (I := fun h : FullNode => h.Holds snapshot) (Q := fun act : Act => act.isReconfigure = false)
    (fun _ act hact hh => ⟨step_stored hh hact, step_coherent hh.coherent act⟩) hacts hh

/-- **Frozen membership.** In every run of a node from a start on any database,
once a snapshot is stored, every run without a reconfiguration reads that
snapshot, and a reconfiguration installs one with the next epoch (or raises
before it has written anything). -/
theorem membership_frozen (h : FullNode) (hstart : h.memory = none) (before : List Act)
    (snapshot : MembershipSnapshot) (hs : (run step h before).stored = some snapshot) :
    (∀ acts : List Act, (∀ act ∈ acts, act.isReconfigure = false) →
      (run step (run step h before) acts).activeConsensusMembership.2 = snapshot) ∧
    ∀ status now,
      let next := ((run step h before).reconfigureConsensusMembership status now).1
      if ((run step h before).book.hydratePeerNodeIds status now).2 then
        next.activeConsensusMembership.2.epoch = snapshot.epoch + 1 ∧
          next.stored = some next.activeConsensusMembership.2
      else next.activeConsensusMembership.2 = snapshot := by
  have hh : (run step h before).Holds snapshot := ⟨hs, run_coherent (.inl hstart) before⟩
  refine ⟨fun acts hacts => ?_, fun status now => ?_⟩
  · rw [(run_holds hh hacts).active]
  · split
    · rename_i hok
      obtain ⟨node, result, heq⟩ := reconfigure_eq _ status now hok
      rw [heq]
      simp only [hs, Option.map_some, Option.getD_some]
      rw [Holds.active ⟨rfl, .inr rfl⟩]
      exact ⟨rfl, rfl⟩
    · rename_i hraise
      rw [reconfigure_raised _ status now (by simpa using hraise)]
      have hkept : Holds { run step h before with
          book := ((run step h before).book.hydratePeerNodeIds status now).1 } snapshot :=
        ⟨hs, hh.coherent⟩
      exact congrArg Prod.snd hkept.active

/-- A membership taken by the first reader outlives a cleared journal, a
removed peer and a restart. -/
theorem membership_frozen_restart :
    let h := withPeers [.register { address := "10.0.0.2:9000", nodeId := "n2" } (.fin 1)]
    let h' := run step h [.read]
    let snapshot := h.activeConsensusMembership.2
    h.memory = none ∧ h'.stored = some snapshot ∧
      (run step h' [.clear [] (.fin 1) (.fin 2), .peers (.remove "10.0.0.2:9000"),
        .restart [] [] (.fin 3) (.fin 4) fun _ => .failed]).activeConsensusMembership.2 = snapshot := by
  intro h h' snapshot
  refine ⟨rfl, rfl, ?_⟩
  exact (membership_frozen h rfl [.read] snapshot rfl).1 _ (by simp [Act.isReconfigure])

end FullNode
end Mdrj.L4
