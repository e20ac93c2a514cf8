import Mdrj.Core.Runs
import Mdrj.Core.Table
import Mdrj.L4Node.Membership

/-!
# The peer registry and the active gossip set

The table `peers` and its copy in memory, `Node._peers`, from which gossip
takes its targets. `register_peer` patches the copy in place; every other
operation reads it anew from the table (`_reload_peers_from_storage`).

Results:
* `mem_reload`: a reload leaves the enabled and approved rows that are not
  the node's own.
* `active_approved_iff`: the active set stays within those rows exactly in
  the runs whose registrations are sound (`SoundStep`).

A call reads the clock once here; the readings only fill `last_seen`. Left
out: `metrics.update_peer_health`.
-/
namespace Mdrj.L4
open Mdrj.Core Mdrj.L1 Mdrj.L3

/-- mirrors mdrj/models.py:281-284 -/
inductive ApprovalStatus where
  | pending | approved | rejected
  deriving DecidableEq, Repr

/-- `value.strip().lower()`. Only ASCII letters are lowered: no other letter
is lowered to a letter of the words it is compared with. -/
def folded (value : String) : String := String.ofList ((strip value).toList.map Char.toLower)

/-- mirrors mdrj/models.py:287-291 -/
@[irreducible] def normalizeApprovalStatus (value : String) : ApprovalStatus :=
  if folded value = "pending" then .pending
  else if folded value = "rejected" then .rejected
  else .approved

/-- mirrors mdrj/models.py:19-23 -/
def normalizeNodeRole (value : String) : String :=
  if folded value = "responder" then "responder" else "node"

/-- `a or b` of two texts. -/
def orText (a b : String) : String := if a = "" then b else a

/-! ## The table -/

/-- mirrors mdrj/storage.py:84-94 -/
structure PeerRow where
  nodeId : String
  lastSeen : Option Flt
  healthy : Bool
  enabled : Bool
  note : String
  source : String
  role : String
  approvalStatus : ApprovalStatus

abbrev PeerTable := Table String PeerRow

/-- `PeerInfo` with all its fields.
mirrors mdrj/models.py:294-305 -/
structure PeerRecord extends PeerRow where
  address : String
  isSelf : Bool

def PeerRow.isSelf (row : PeerRow) : Bool := row.source == "self"

/-- A row as `list_peers` and `update_peer` return it. -/
def PeerRow.record (address : String) (row : PeerRow) : PeerRecord where
  toPeerRow := { row with source := orText row.source "runtime", role := normalizeNodeRole row.role }
  address := address
  isSelf := orText row.source "runtime" == "self"

/-- What `ensure_peer` is given. -/
structure NewPeer where
  nodeId : String := ""
  lastSeen : Option Flt
  healthy : Bool
  enabled : Bool := true
  note : String := ""
  source : String := "runtime"
  role : String := "node"
  approvalStatus : String := "approved"

/-- A present row keeps its own note, source, node id, role and status.
mirrors mdrj/storage.py:811-884 -/
def PeerTable.ensurePeer (t : PeerTable) (address : String) (new : NewPeer) : PeerTable :=
  t.put address <| match t.get address with
    | some row =>
      { row with
        nodeId := orText row.nodeId new.nodeId, lastSeen := new.lastSeen.or row.lastSeen,
        healthy := new.healthy, note := orText row.note new.note,
        source := orText row.source new.source, role := normalizeNodeRole row.role }
    | none =>
      { nodeId := new.nodeId, lastSeen := new.lastSeen, healthy := new.healthy,
        enabled := new.enabled, note := new.note, source := new.source,
        role := normalizeNodeRole new.role,
        approvalStatus := normalizeApprovalStatus new.approvalStatus }

/-- What `update_peer` is given; `none` keeps the column. -/
structure PeerChanges where
  enabled : Option Bool := none
  note : Option String := none
  lastSeen : Option Flt := none
  healthy : Option Bool := none
  role : Option String := none
  nodeId : Option String := none
  approvalStatus : Option String := none

/-- mirrors mdrj/storage.py:904-921 -/
def PeerRow.change (row : PeerRow) (changes : PeerChanges) : PeerRow where
  nodeId := changes.nodeId.getD row.nodeId
  lastSeen := changes.lastSeen.or row.lastSeen
  healthy := changes.healthy.getD row.healthy
  enabled := changes.enabled.getD row.enabled
  note := changes.note.getD row.note
  source := orText row.source "runtime"
  role := normalizeNodeRole (changes.role.getD row.role)
  approvalStatus := (changes.approvalStatus.map normalizeApprovalStatus).getD row.approvalStatus

/-- Nothing happens to an address without a row.
mirrors mdrj/storage.py:886-933 -/
def PeerTable.updatePeer (t : PeerTable) (address : String) (changes : PeerChanges) :
    PeerTable × Option PeerRecord :=
  match t.get address with
  | none => (t, none)
  | some row => (t.put address (row.change changes), some ((row.change changes).record address))

/-- The health write: a missing row is inserted with the defaults of the
table, a present one keeps all but two columns.
mirrors mdrj/storage.py:804-809 -/
def PeerTable.upsertPeer (t : PeerTable) (address : String) (lastSeen : Flt) (healthy : Bool) :
    PeerTable :=
  t.put address <| match t.get address with
    | some row => { row with lastSeen := some lastSeen, healthy := healthy }
    | none =>
      { nodeId := "", lastSeen := some lastSeen, healthy := healthy, enabled := true, note := "",
        source := "runtime", role := "node", approvalStatus := .approved }

/-- mirrors mdrj/storage.py:935-937 -/
def PeerTable.deletePeer (t : PeerTable) (address : String) : PeerTable := t.erase address

/-- The node's own rows first, then by address.
mirrors mdrj/storage.py:939-962 -/
def PeerTable.listPeers (t : PeerTable) : List PeerRecord :=
  (t.rows.map fun p => p.2.record p.1).insertionSort fun a b =>
    a.isSelf ∧ ¬ b.isSelf ∨ a.isSelf = b.isSelf ∧ a.address ≤ b.address

/-- A row gossip may go to. -/
def PeerRow.Active (row : PeerRow) : Prop :=
  row.enabled = true ∧ row.approvalStatus = .approved ∧ row.isSelf = false

instance (row : PeerRow) : Decidable row.Active := by unfold PeerRow.Active; infer_instance

/-! ## The node -/

/-- The settings peer management reads. -/
structure PeerConfig where
  nodeId : String
  peers : List String := []
  role : String := "node"   -- `profile.role`
  autoApproveDiscovered : Bool := false

structure PeerBook where
  config : PeerConfig
  table : PeerTable
  peers : Dict String PeerRecord   -- `_peers`

namespace PeerBook

def selfRegistryAddress (b : PeerBook) : String := "self:" ++ b.config.nodeId

/-- mirrors mdrj/node.py:378-389 -/
def reloadPeersFromStorage (b : PeerBook) : PeerBook :=
  { b with peers := b.table.listPeers.foldl (fun active peer =>
      if !peer.enabled || peer.isSelf then active
      else if peer.approvalStatus ≠ .approved then active
      else Dict.set active peer.address peer) [] }

/-- `Node.__init__` on a database.
mirrors mdrj/node.py:83-111 -/
def init (config : PeerConfig) (table : PeerTable) (now : Flt) : PeerBook :=
  let table := table.ensurePeer ("self:" ++ config.nodeId)
    { nodeId := config.nodeId, lastSeen := some now, healthy := true, note := "Текущий узел",
      source := "self", role := normalizeNodeRole config.role }
  let table := config.peers.foldl (fun table address =>
    PeerTable.ensurePeer table address
      { lastSeen := some now, healthy := true, source := "config" }) table
  reloadPeersFromStorage ⟨config, table, []⟩

/-- mirrors mdrj/node.py:391-395 -/
def currentRole (b : PeerBook) : String :=
  match b.table.listPeers.find? PeerRecord.isSelf with
  | some peer => normalizeNodeRole peer.role
  | none => normalizeNodeRole b.config.role

/-- The addresses of `list_peers()`.
mirrors mdrj/node.py:372-373 -/
def listPeers (b : PeerBook) : List String := Dict.keys b.peers

/-- The arguments of `register_peer`. -/
structure Registration where
  address : String
  note : String := ""
  source : String := "ui"
  role : String := "node"
  nodeId : String := ""
  approvalStatus : Option String := none

/-- mirrors mdrj/node.py:413-416 -/
def Registration.status (r : Registration) : String :=
  match r.approvalStatus with
  | some status => status
  | none => if r.source = "mdns" ∨ r.source = "k8s" then "pending" else "approved"

/-- mirrors mdrj/node.py:417-427 -/
def Registration.new (r : Registration) (now : Flt) : NewPeer where
  nodeId := r.nodeId
  lastSeen := some now
  healthy := true
  note := r.note
  source := r.source
  role := r.role
  approvalStatus := r.status

/-- mirrors mdrj/node.py:428-437 -/
def Registration.changes (r : Registration) (now : Flt) : PeerChanges where
  enabled := some true
  note := some r.note
  lastSeen := some now
  healthy := some true
  role := some r.role
  nodeId := some r.nodeId
  approvalStatus := some r.status

/-- The node and the record, whose announcement is not made here.
mirrors mdrj/node.py:400-444 -/
def registerPeer (b : PeerBook) (r : Registration) (now : Flt) : PeerBook × Option PeerRecord :=
  let table := b.table.ensurePeer r.address (r.new now)
  match table.updatePeer r.address (r.changes now) with
  | (table, none) => ({ b with table := table }, none)
  | (table, some peer) =>
    let peer := { peer with source := r.source }
    if peer.approvalStatus = .approved then
      ({ b with table := table, peers := Dict.set b.peers r.address peer }, some peer)
    else ({ b with table := table }, some peer)

/-- `storage.update_peer`, then a reload. -/
def change (b : PeerBook) (address : String) (changes : PeerChanges) : PeerBook :=
  reloadPeersFromStorage { b with table := (b.table.updatePeer address changes).1 }

/-- mirrors mdrj/node.py:451-457 -/
def approvePeer (b : PeerBook) (address : String) : PeerBook :=
  b.change address { approvalStatus := some "approved" }

/-- mirrors mdrj/node.py:459-465 -/
def rejectPeer (b : PeerBook) (address : String) : PeerBook :=
  b.change address { approvalStatus := some "rejected" }

/-- How a discovered peer is registered.
mirrors mdrj/node.py:536-550 -/
def discovery (b : PeerBook) (address nodeId source : String) : Registration where
  address := address
  source := source
  nodeId := nodeId
  approvalStatus := some (if b.config.autoApproveDiscovered then "approved" else "pending")

/-- A known address is left alone.
mirrors mdrj/node.py:522-560 -/
def onDiscoveredPeer (b : PeerBook) (address nodeId source : String) (now : Flt) : PeerBook :=
  if address ∈ b.table.listPeers.map PeerRecord.address then b
  else (b.registerPeer (b.discovery address nodeId source) now).1

/-- The arguments of `update_peer`. -/
structure Update where
  address : String
  enabled : Option Bool := none
  note : Option String := none
  role : Option String := none
  nodeId : Option String := none
  approvalStatus : Option String := none

/-- The own row stays enabled and keeps the node's id.
mirrors mdrj/node.py:562-593 -/
def updatePeer (b : PeerBook) (u : Update) (now : Flt) : PeerBook :=
  if u.address = b.selfRegistryAddress then
    b.change u.address
      { enabled := some true, note := u.note, role := u.role, nodeId := some b.config.nodeId,
        lastSeen := some now, healthy := some true, approvalStatus := u.approvalStatus }
  else
    b.change u.address
      { enabled := u.enabled, note := u.note, role := u.role, nodeId := u.nodeId,
        approvalStatus := u.approvalStatus }

/-- mirrors mdrj/node.py:595-600 -/
def removePeer (b : PeerBook) (address : String) : PeerBook :=
  if address = b.selfRegistryAddress then b
  else reloadPeersFromStorage { b with table := b.table.deletePeer address }

/-! ## What a reload leaves -/

end PeerBook

@[simp] theorem PeerRow.record_address (address : String) (row : PeerRow) :
    (row.record address).address = address := rfl

@[simp] theorem PeerRow.record_enabled (address : String) (row : PeerRow) :
    (row.record address).enabled = row.enabled := rfl

@[simp] theorem PeerRow.record_approvalStatus (address : String) (row : PeerRow) :
    (row.record address).approvalStatus = row.approvalStatus := rfl

theorem orText_eq_self {a b : String} (hb : b ≠ "self") : orText a b = "self" ↔ a = "self" := by
  unfold orText
  split
  · rename_i h
    subst h
    exact ⟨fun e => absurd e hb, fun e => absurd e (by decide)⟩
  · exact Iff.rfl

@[simp] theorem PeerRow.record_isSelf (address : String) (row : PeerRow) :
    (row.record address).isSelf = row.isSelf := by
  have h := orText_eq_self (a := row.source) (b := "runtime") (by decide)
  simp only [PeerRow.record, PeerRow.isSelf, beq_eq_beq]
  exact h

theorem PeerRow.change_approvalStatus {row : PeerRow} {changes : PeerChanges} {status : String}
    (h : changes.approvalStatus = some status) :
    (row.change changes).approvalStatus = normalizeApprovalStatus status := by
  simp only [PeerRow.change, h, Option.map_some, Option.getD_some]

@[simp] theorem PeerRow.change_isSelf (row : PeerRow) (changes : PeerChanges) :
    (row.change changes).isSelf = row.isSelf := by
  simp only [PeerRow.isSelf, PeerRow.change, beq_eq_beq]
  exact orText_eq_self (by decide)

theorem PeerTable.mem_listPeers {t : PeerTable} {peer : PeerRecord} :
    peer ∈ t.listPeers ↔ ∃ address row, t.get address = some row ∧ peer = row.record address := by
  unfold PeerTable.listPeers
  rw [List.mem_insertionSort, List.mem_map]
  constructor
  · intro h
    obtain ⟨⟨address, row⟩, hmem, rfl⟩ := h
    exact ⟨address, row, Table.mem_rows.1 hmem, rfl⟩
  · intro h
    obtain ⟨address, row, hget, rfl⟩ := h
    exact ⟨(address, row), Table.mem_rows.2 hget, rfl⟩

namespace PeerBook

theorem mem_keys_reload (rows : List PeerRecord) (active : Dict String PeerRecord) (a : String) :
    a ∈ Dict.keys (rows.foldl (fun active peer =>
      if !peer.enabled || peer.isSelf then active
      else if peer.approvalStatus ≠ .approved then active
      else Dict.set active peer.address peer) active) ↔
    a ∈ Dict.keys active ∨ ∃ peer ∈ rows, peer.address = a ∧ peer.enabled = true ∧
      peer.approvalStatus = .approved ∧ peer.isSelf = false := by
  induction rows generalizing active with
  | nil => simp
  | cons peer rows ih =>
    rw [List.foldl_cons, ih]
    simp only [List.exists_mem_cons_iff]
    rw [← or_assoc]
    refine or_congr_left ?_
    by_cases hon : peer.enabled = true ∧ peer.approvalStatus = .approved ∧ peer.isSelf = false
    · obtain ⟨he, ha, hs⟩ := hon
      simp only [he, ha, hs, Dict.mem_keys_set, Bool.not_true, Bool.or_self, Bool.false_eq_true,
        if_false, ne_eq, not_true_eq_false, and_true]
      rw [or_comm, eq_comm]
    · have hskip : (if (!peer.enabled || peer.isSelf) = true then active
          else if peer.approvalStatus ≠ .approved then active
          else Dict.set active peer.address peer) = active := by
        split
        · rfl
        · split
          · rfl
          · rename_i h1 h2
            simp only [Bool.or_eq_true, Bool.not_eq_true', not_or, Bool.not_eq_true,
              Bool.not_eq_false] at h1
            exact absurd ⟨h1.1, not_not.1 h2, h1.2⟩ hon
      rw [hskip]
      exact ⟨Or.inl, fun h => h.elim id fun hp => absurd hp.2 hon⟩

/-- **Reload.** The active set becomes the rows that are enabled, approved and
not the node's own. -/
theorem mem_reload {b : PeerBook} {a : String} :
    a ∈ b.reloadPeersFromStorage.listPeers ↔ ∃ row, b.table.get a = some row ∧ row.Active := by
  unfold listPeers reloadPeersFromStorage
  rw [mem_keys_reload]
  simp only [Dict.keys_nil, List.not_mem_nil, false_or, PeerTable.mem_listPeers]
  constructor
  · intro h
    obtain ⟨_, ⟨address, row, hget, rfl⟩, rfl, hon⟩ := h
    exact ⟨row, hget, by simpa [PeerRow.Active] using hon⟩
  · intro h
    obtain ⟨row, hget, hon⟩ := h
    exact ⟨row.record a, ⟨a, row, hget, rfl⟩, rfl, by simpa [PeerRow.Active] using hon⟩

/-! ## What the operations do -/

theorem ensurePeer_get_ne (t : PeerTable) {a address : String} (new : NewPeer) (h : address ≠ a) :
    (t.ensurePeer address new).get a = t.get a := Table.get_put_ne t _ h

theorem updatePeer_get_ne (t : PeerTable) {a address : String} (changes : PeerChanges)
    (h : address ≠ a) : (t.updatePeer address changes).1.get a = t.get a := by
  unfold PeerTable.updatePeer
  split
  · rfl
  · exact Table.get_put_ne t _ h

theorem updatePeer_get_self (t : PeerTable) (address : String) (changes : PeerChanges) :
    (t.updatePeer address changes).1.get address =
      (t.get address).map fun row => row.change changes := by
  unfold PeerTable.updatePeer
  split
  · rename_i h; rw [h]; rfl
  · rename_i row h; rw [h]; exact Table.get_put_self t address _

/-- The source `ensure_peer` leaves in the row of a registration. -/
def registeredSource (b : PeerBook) (r : Registration) : String :=
  match b.table.get r.address with
  | some row => orText row.source r.source
  | none => r.source

/-- The row a registration leaves. -/
theorem registerPeer_eq (b : PeerBook) (r : Registration) (now : Flt) : ∃ table row record,
    (∀ a, a ≠ r.address → table.get a = b.table.get a) ∧ table.get r.address = some row ∧
    row.enabled = true ∧ row.approvalStatus = normalizeApprovalStatus r.status ∧
    row.isSelf = (b.registeredSource r == "self") ∧
    record.approvalStatus = normalizeApprovalStatus r.status ∧
    b.registerPeer r now =
      (if normalizeApprovalStatus r.status = .approved then
        { b with table := table, peers := Dict.set b.peers r.address record }
      else { b with table := table }, some record) := by
  obtain ⟨row, hrow, hsource⟩ : ∃ row,
      (b.table.ensurePeer r.address (r.new now)).get r.address = some row ∧
        row.source = b.registeredSource r := by
    refine ⟨_, Table.get_put_self _ _ _, ?_⟩
    unfold registeredSource
    cases b.table.get r.address <;> rfl
  have hself : (row.change (r.changes now)).isSelf = (b.registeredSource r == "self") := by
    rw [PeerRow.change_isSelf, PeerRow.isSelf, hsource]
  have hstatus : (row.change (r.changes now)).approvalStatus = normalizeApprovalStatus r.status :=
    PeerRow.change_approvalStatus rfl
  refine ⟨(b.table.ensurePeer r.address (r.new now)).put r.address (row.change (r.changes now)),
    row.change (r.changes now), { (row.change (r.changes now)).record r.address with source := r.source },
    ?_, Table.get_put_self _ r.address _, rfl, hstatus, hself, hstatus, ?_⟩
  · intro a ha
    rw [Table.get_put_ne _ _ (fun e => ha e.symm)]
    exact ensurePeer_get_ne b.table _ fun e => ha e.symm
  · unfold registerPeer
    dsimp only [PeerTable.updatePeer]
    rw [hrow]
    simp only [PeerRow.record_approvalStatus, hstatus]
    split <;> rfl

theorem mem_listPeers_registerPeer (b : PeerBook) (r : Registration) (now : Flt) (a : String) :
    a ∈ (b.registerPeer r now).1.listPeers ↔
      normalizeApprovalStatus r.status = .approved ∧ a = r.address ∨ a ∈ b.listPeers := by
  obtain ⟨table, row, record, -, -, -, -, -, -, heq⟩ := b.registerPeer_eq r now
  rw [heq]
  dsimp only
  split
  · rename_i h
    simp [listPeers, Dict.mem_keys_set, h]
  · rename_i h
    simp [listPeers, h]

/-! ## Runs -/

/-- The calls that manage peers. -/
inductive Action where
  | register (r : Registration) (now : Flt)
  | approve (address : String)
  | reject (address : String)
  | update (u : Update) (now : Flt)
  | remove (address : String)
  | discovered (address nodeId source : String) (now : Flt)

def step (b : PeerBook) : Action → PeerBook
  | .register r now => (b.registerPeer r now).1
  | .approve address => b.approvePeer address
  | .reject address => b.rejectPeer address
  | .update u now => b.updatePeer u now
  | .remove address => b.removePeer address
  | .discovered address nodeId source now => b.onDiscoveredPeer address nodeId source now

/-- Every active address has a row that is enabled, approved and not the
node's own. -/
def ActiveApproved (b : PeerBook) : Prop :=
  ∀ a ∈ b.listPeers, ∃ row, b.table.get a = some row ∧ row.Active

/-- An approved registration does not leave a row marked as the node's own,
and one that is not approved does not hit an active address. -/
def SoundRegistration (b : PeerBook) (r : Registration) : Prop :=
  if normalizeApprovalStatus r.status = .approved then b.registeredSource r ≠ "self"
  else r.address ∉ b.listPeers

def SoundStep (b : PeerBook) : Action → Prop
  | .register r _ => b.SoundRegistration r
  | .discovered address nodeId source _ =>
    address ∈ b.table.listPeers.map PeerRecord.address ∨
      b.SoundRegistration (b.discovery address nodeId source)
  | _ => True

theorem reload_activeApproved (b : PeerBook) : b.reloadPeersFromStorage.ActiveApproved :=
  fun _ ha => mem_reload.1 ha

/-- A registration keeps the active set within the approved rows exactly when
it is sound. -/
theorem registerPeer_activeApproved {b : PeerBook} (h : b.ActiveApproved) (r : Registration)
    (now : Flt) : (b.registerPeer r now).1.ActiveApproved ↔ b.SoundRegistration r := by
  obtain ⟨table, row, record, hother, hrow, hon, hstatus, hself, -, heq⟩ := b.registerPeer_eq r now
  have htable : (b.registerPeer r now).1.table = table := by rw [heq]; dsimp only; split <;> rfl
  -- the addresses that were active before keep their rows, but for the one registered
  have hold : ∀ a ∈ b.listPeers, a ≠ r.address → ∃ row, table.get a = some row ∧ row.Active := by
    intro a ha hne
    rw [hother a hne]
    exact h a ha
  unfold ActiveApproved SoundRegistration
  simp only [htable, mem_listPeers_registerPeer]
  split
  · rename_i happr
    rw [happr] at hstatus
    constructor
    · intro hall
      obtain ⟨row', hrow', hact⟩ := hall r.address (.inl ⟨happr, rfl⟩)
      rw [hrow, Option.some.injEq] at hrow'
      rw [← hrow'] at hact
      simpa [hself] using hact.2.2
    · intro hsrc a ha
      by_cases hne : a = r.address
      · subst hne
        exact ⟨row, hrow, hon, hstatus, by simpa [hself] using hsrc⟩
      · exact hold a (ha.resolve_left fun e => hne e.2) hne
  · rename_i happr
    constructor
    · intro hall ha
      obtain ⟨row', hrow', hact⟩ := hall r.address (.inr ha)
      rw [hrow, Option.some.injEq] at hrow'
      rw [← hrow', PeerRow.Active, hstatus] at hact
      exact happr hact.2.1
    · intro hout a ha
      have ha := ha.resolve_left fun e => happr e.1
      exact hold a ha fun e => hout (e ▸ ha)

/-- The other calls read the set anew, so they are always sound. -/
theorem step_activeApproved {b : PeerBook} (h : b.ActiveApproved) (action : Action) :
    (b.step action).ActiveApproved ↔ b.SoundStep action := by
  cases action with
  | register r now => exact registerPeer_activeApproved h r now
  | approve address => exact iff_of_true (reload_activeApproved _) trivial
  | reject address => exact iff_of_true (reload_activeApproved _) trivial
  | update u now =>
    refine iff_of_true ?_ trivial
    simp only [step, updatePeer]
    split <;> exact reload_activeApproved _
  | remove address =>
    refine iff_of_true ?_ trivial
    simp only [step, removePeer]
    split
    · exact h
    · exact reload_activeApproved _
  | discovered address nodeId source now =>
    simp only [step, onDiscoveredPeer, SoundStep]
    split
    · rename_i hknown
      exact iff_of_true h (.inl hknown)
    · rename_i hnew
      rw [registerPeer_activeApproved h, or_iff_right hnew]

/-- **Active peers.** From the start of a node on any registry, every active
address has an enabled and approved row that is not the node's own in all
states of a run exactly when all its registrations are sound. -/
theorem active_approved_iff (config : PeerConfig) (table : PeerTable) (now : Flt)
    (actions : List Action) :
    (∀ pre, pre <+: actions → (run step (init config table now) pre).ActiveApproved) ↔
      Admits step SoundStep (init config table now) actions := by
  refine (admits_iff (I := ActiveApproved) (fun _ h => h) ?_ ?_ (reload_activeApproved _)).symm
  · intro b action h hok
    exact (step_activeApproved h action).2 hok
  · intro b action h hno hact
    exact hno ((step_activeApproved h action).1 hact)

/-- A peer entered by hand is announced again by discovery: its row waits for
an approval, and gossip still goes to it. -/
def downgrade : List Action :=
  [.register { address := "10.0.0.2:9000" } (.fin 1),
    .register { address := "10.0.0.2:9000", source := "mdns" } (.fin 2)]

theorem downgraded_peer_active : ¬ ∀ (config : PeerConfig) (table : PeerTable) (now : Flt)
    (actions : List Action), (run step (init config table now) actions).ActiveApproved := by
  intro h
  obtain ⟨row, hrow, -, happr, -⟩ := h { nodeId := "n1" } .empty (.fin 0) downgrade
    "10.0.0.2:9000" (by decide +kernel)
  have hpending : ((run step (init { nodeId := "n1" } .empty (.fin 0)) downgrade).table.get
      "10.0.0.2:9000").map PeerRow.approvalStatus = some .pending := by decide +kernel
  rw [hrow] at hpending
  exact absurd (happr.symm.trans (Option.some.inj hpending)) (by decide)

end PeerBook
end Mdrj.L4
