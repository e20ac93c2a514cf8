import Mdrj.L4Node.Peers

/-!
# Removed peers

`remove_peer` deletes the row of an address while sends to it may still be
under way. Each of them ends in a health write, which is an upsert: it puts
the row back, enabled and approved, and the next reload makes the address
active again. The writes of node ids (`_hydrate_peer_node_ids`,
`_fetch_peer_consensus`) go through `update_peer`, which does nothing
without a row.

Results:
* `removed_stays_removed_iff`: after its removal an address stays out of the
  active set exactly in the runs that never reload while a health write has
  put its row back.
-/
namespace Mdrj.L4
open Mdrj.Core Mdrj.L1 Mdrj.L3

/-- A node with the sends under way. -/
structure Traffic where
  book : PeerBook
  inFlight : List String   -- the addresses a tick has picked and not heard from
  /-- ghost: the addresses with a health write since their last removal -/
  written : List String := []

namespace Traffic

inductive Act where
  | call (action : PeerBook.Action)
  | pick (address : String)
  | ended (address : String) (now : Flt) (healthy : Bool)
  | identified (address nodeId : String) (now : Flt)
  | reload
  | restart (peers : List String) (now : Flt)

/-- A send to a picked address ends in the health write, whatever its
outcome.
mirrors mdrj/gossip.py:132-154 -/
def sendEnded (t : Traffic) (address : String) (now : Flt) (healthy : Bool) : Traffic where
  book := { t.book with table := t.book.table.upsertPeer address now healthy }
  inFlight := t.inFlight.erase address
  written := address :: t.written

/-- mirrors mdrj/node.py:653-658 and 2297-2302 -/
def identify (t : Traffic) (address nodeId : String) (now : Flt) : Traffic :=
  { t with book := { t.book with table := (t.book.table.updatePeer address
      { nodeId := some nodeId, lastSeen := some now, healthy := some true }).1 } }

def step (t : Traffic) : Act → Traffic
  | .call (.remove address) =>
    { t with
      book := t.book.removePeer address
      written := if address = t.book.selfRegistryAddress then t.written
        else t.written.filter (· ≠ address) }
  | .call action => { t with book := t.book.step action }
  | .pick address =>
    if address ∈ t.book.listPeers then { t with inFlight := address :: t.inFlight } else t
  | .ended address now healthy =>
    if address ∈ t.inFlight then t.sendEnded address now healthy else t
  | .identified address nodeId now => t.identify address nodeId now
  | .reload => { t with book := t.book.reloadPeersFromStorage }
  | .restart peers now =>
    { t with book := .init { t.book.config with peers := peers } t.book.table now, inFlight := [] }

/-- The calls that may follow the removal of `a`: none of them brings `a` back
on purpose, and changes are made to other rows. -/
def Spares (a : String) : Act → Prop
  | .call (.register r _) => r.address ≠ a
  | .call (.discovered address _ _ _) => address ≠ a
  | .call (.approve address) => address ≠ a
  | .call (.reject address) => address ≠ a
  | .call (.update u _) => u.address ≠ a
  | .restart peers _ => a ∉ peers
  | _ => True

/-- The active set is read anew with the row of `a` still in the table. -/
def Reloads (a : String) (b : PeerBook) : Act → Prop
  | .call (.approve _) => True
  | .call (.reject _) => True
  | .call (.update _ _) => True
  | .call (.remove address) => address ≠ a ∧ address ≠ b.selfRegistryAddress
  | .reload => True
  | .restart _ _ => True
  | _ => False

/-- No reload while a health write has put the row back. -/
def Settled (a : String) (t : Traffic) (act : Act) : Prop := Reloads a t.book act → a ∉ t.written

/-! ## The row of a removed address -/

/-- `a` is not active, and its row is what health writes since its removal
made of it. -/
structure Gone (a : String) (t : Traffic) : Prop where
  other : a ≠ t.book.selfRegistryAddress
  inactive : a ∉ t.book.listPeers
  row : ∀ row, t.book.table.get a = some row → row.Active
  written : a ∈ t.written ↔ ∃ row, t.book.table.get a = some row

/-- The own address, the row of `a` and its health writes are as before. -/
structure Kept (a : String) (t t' : Traffic) : Prop where
  self : t'.book.selfRegistryAddress = t.book.selfRegistryAddress
  row : t'.book.table.get a = t.book.table.get a
  written : a ∈ t'.written ↔ a ∈ t.written

variable {a : String} {t t' : Traffic}

theorem Gone.kept (h : Gone a t) (hk : Kept a t t') (hout : a ∉ t'.book.listPeers) : Gone a t' where
  other := hk.self ▸ h.other
  inactive := hout
  row := hk.row ▸ h.row
  written := by rw [hk.written, hk.row, h.written]

/-- A reload finds the row of `a` exactly when it was written back. -/
theorem Gone.mem_reload (h : Gone a t) (hk : Kept a t t') {b : PeerBook}
    (hb : t'.book = b.reloadPeersFromStorage) : a ∈ t'.book.listPeers ↔ a ∈ t.written := by
  have hrow : b.table.get a = t.book.table.get a := by
    rw [← hk.row, hb]; rfl
  rw [hb, PeerBook.mem_reload, hrow, h.written]
  constructor
  · intro hact
    obtain ⟨row, hget, -⟩ := hact
    exact ⟨row, hget⟩
  · intro hget
    obtain ⟨row, hget⟩ := hget
    exact ⟨row, hget, h.row row hget⟩

/-- A settled step keeps `a` away, and a step that is not settled makes it
active again. -/
def Verdict (a : String) (t t' : Traffic) (act : Act) : Prop :=
  (Settled a t act → Gone a t') ∧ (¬ Settled a t act → a ∈ t'.book.listPeers)

theorem Gone.quiet {act : Act} (h : Gone a t') (hact : ¬ Reloads a t.book act) : Verdict a t t' act :=
  ⟨fun _ => h, fun hno => absurd (fun hr => absurd hr hact) hno⟩

theorem Gone.reloaded (h : Gone a t) {act : Act} (hk : Kept a t t') {b : PeerBook}
    (hb : t'.book = b.reloadPeersFromStorage) (hact : Reloads a t.book act) : Verdict a t t' act := by
  have hmem := h.mem_reload hk hb
  constructor
  · intro hok
    exact h.kept hk fun ha => hok hact (hmem.1 ha)
  · intro hno
    exact hmem.2 (by_contra fun hw => hno fun _ => hw)

/-! ## The steps -/

theorem change_kept {address : String} (hne : address ≠ a) (changes : PeerChanges) :
    Kept a t { t with book := t.book.change address changes } :=
  ⟨rfl, PeerBook.updatePeer_get_ne t.book.table changes hne, Iff.rfl⟩

theorem registerPeer_kept {r : PeerBook.Registration} (hne : r.address ≠ a) (now : Flt) :
    Kept a t { t with book := (t.book.registerPeer r now).1 } := by
  obtain ⟨table, row, record, hother, -, -, -, -, -, heq⟩ := t.book.registerPeer_eq r now
  have hrow := hother a fun e => hne e.symm
  refine ⟨?_, ?_, Iff.rfl⟩
  · simp only [heq]
    split <;> rfl
  · simp only [heq]
    split <;> exact hrow

theorem Gone.registerPeer (h : Gone a t) {r : PeerBook.Registration} (hne : r.address ≠ a) (now : Flt) :
    Gone a { t with book := (t.book.registerPeer r now).1 } := by
  refine h.kept (registerPeer_kept hne now) ?_
  rw [PeerBook.mem_listPeers_registerPeer]
  exact fun hmem => hmem.elim (fun e => hne e.2.symm) h.inactive

/-- The health write leaves a row that gossip may go to. -/
theorem Gone.sendEnded (h : Gone a t) (address : String) (now : Flt) (healthy : Bool) :
    Gone a (t.sendEnded address now healthy) := by
  by_cases hne : address = a
  · subst hne
    refine ⟨h.other, h.inactive, ?_, ?_⟩
    · intro row hget
      rw [Traffic.sendEnded, PeerTable.upsertPeer, Table.get_put_self, Option.some.injEq] at hget
      subst hget
      cases hold : t.book.table.get address with
      | none => exact ⟨rfl, rfl, show ("runtime" == "self") = false by decide⟩
      | some old => exact h.row old hold
    · simp [Traffic.sendEnded, PeerTable.upsertPeer]
  · refine h.kept ⟨rfl, Table.get_put_ne _ _ hne, ?_⟩ h.inactive
    simp [Traffic.sendEnded, Ne.symm hne]

/-- Writing a node id leaves a missing row missing. -/
theorem Gone.identify (h : Gone a t) (address nodeId : String) (now : Flt) :
    Gone a (t.identify address nodeId now) := by
  by_cases hne : address = a
  · subst hne
    have hget := PeerBook.updatePeer_get_self t.book.table address
      { nodeId := some nodeId, lastSeen := some now, healthy := some true }
    refine ⟨h.other, h.inactive, ?_, ?_⟩
    · intro row hrow
      rw [Traffic.identify, hget, Option.map_eq_some_iff] at hrow
      obtain ⟨old, hold, rfl⟩ := hrow
      obtain ⟨hon, happr, hself⟩ := h.row old hold
      exact ⟨hon, happr, (PeerRow.change_isSelf old _).trans hself⟩
    · rw [Traffic.identify, hget]
      simpa using h.written
  · exact h.kept ⟨rfl, PeerBook.updatePeer_get_ne t.book.table _ hne, Iff.rfl⟩ h.inactive

theorem init_get (config : PeerConfig) (hself : "self:" ++ config.nodeId ≠ a)
    (hpeers : a ∉ config.peers) (table : PeerTable) (now : Flt) :
    (PeerBook.init config table now).table.get a = table.get a := by
  have hconfig : ∀ (peers : List String) (table : PeerTable) (new : NewPeer), a ∉ peers →
      (peers.foldl (fun table address => PeerTable.ensurePeer table address new) table).get a =
        table.get a := by
    intro peers
    induction peers with
    | nil => intros; rfl
    | cons address peers ih =>
      intro table new hmem
      rw [List.mem_cons, not_or] at hmem
      rw [List.foldl_cons, ih _ _ hmem.2]
      exact PeerBook.ensurePeer_get_ne table new fun e => hmem.1 e.symm
  exact (hconfig config.peers _ _ hpeers).trans (PeerBook.ensurePeer_get_ne table _ hself)

theorem removePeer_gone (hself : a ≠ t.book.selfRegistryAddress) :
    Gone a (t.step (.call (.remove a))) := by
  have hbook : (t.step (.call (.remove a))).book =
      PeerBook.reloadPeersFromStorage { t.book with table := t.book.table.deletePeer a } := by
    simp only [step, PeerBook.removePeer, if_neg hself]
  have hrow : (t.step (.call (.remove a))).book.table.get a = none := by
    rw [hbook]
    exact Table.get_erase_self t.book.table a
  refine ⟨?_, ?_, ?_, ?_⟩
  · rw [hbook]; exact hself
  · rw [hbook, PeerBook.mem_reload]
    intro hmem
    obtain ⟨row, hget, -⟩ := hmem
    rw [PeerTable.deletePeer, Table.get_erase_self] at hget
    cases hget
  · rw [hrow]; intro row hget; cases hget
  · rw [hrow]; simp [step, if_neg hself]

/-- **One step** after the removal of `a`. -/
theorem Gone.step (h : Gone a t) {act : Act} (hspare : Spares a act) : Verdict a t (t.step act) act := by
  cases act with
  | call action =>
    cases action with
    | register r now => exact (h.registerPeer hspare now).quiet id
    | approve address => exact h.reloaded (change_kept hspare _) rfl trivial
    | reject address => exact h.reloaded (change_kept hspare _) rfl trivial
    | update u now =>
      have hbook : ∃ changes, t.book.updatePeer u now = t.book.change u.address changes := by
        unfold PeerBook.updatePeer
        split
        · exact ⟨_, rfl⟩
        · exact ⟨_, rfl⟩
      obtain ⟨changes, hbook⟩ := hbook
      simp only [Traffic.step, PeerBook.step, hbook]
      exact h.reloaded (change_kept hspare _) rfl trivial
    | remove address =>
      by_cases hown : address = t.book.selfRegistryAddress
      · have hstep : t.step (.call (.remove address)) = t := by
          simp only [Traffic.step, PeerBook.removePeer, if_pos hown]
        rw [hstep]
        exact h.quiet fun hact => hact.2 hown
      · by_cases hne : address = a
        · subst hne
          exact (removePeer_gone hown).quiet fun hact => hact.1 rfl
        · refine h.reloaded (b := { t.book with table := t.book.table.deletePeer address }) ?_ ?_ ⟨hne, hown⟩
          · refine ⟨?_, ?_, ?_⟩
            · simp only [Traffic.step, PeerBook.removePeer, if_neg hown]; rfl
            · simp only [Traffic.step, PeerBook.removePeer, if_neg hown]
              exact Table.get_erase_ne t.book.table hne
            · simp [Traffic.step, if_neg hown, Ne.symm hne]
          · simp only [Traffic.step, PeerBook.removePeer, if_neg hown]
    | discovered address nodeId source now =>
      simp only [Traffic.step, PeerBook.step, PeerBook.onDiscoveredPeer]
      split
      · exact h.quiet id
      · exact (h.registerPeer (r := t.book.discovery address nodeId source) hspare now).quiet id
  | pick address =>
    simp only [Traffic.step]
    split
    · have hpick : Gone a { t with inFlight := address :: t.inFlight } := h.kept ⟨rfl, rfl, Iff.rfl⟩ h.inactive
      exact hpick.quiet id
    · exact h.quiet id
  | ended address now healthy =>
    simp only [Traffic.step]
    split
    · exact (h.sendEnded address now healthy).quiet id
    · exact h.quiet id
  | identified address nodeId now => exact (h.identify address nodeId now).quiet id
  | reload => exact h.reloaded ⟨rfl, rfl, Iff.rfl⟩ rfl trivial
  | restart peers now =>
    refine h.reloaded ⟨rfl, ?_, Iff.rfl⟩ rfl trivial
    exact init_get { t.book.config with peers := peers } (fun e => h.other e.symm) hspare
      t.book.table now

/-- **Removed peers.** After `remove_peer(a)` of a peer, whatever the state, `a`
stays out of the active set exactly in the runs that never reload between a
health write for `a` and the next removal of it. -/
theorem removed_stays_removed_iff (t : Traffic) (a : String) (ha : a ≠ t.book.selfRegistryAddress)
    (acts : List Act) (hspare : ∀ act ∈ acts, Spares a act) :
    (∀ pre, pre <+: acts →
      a ∉ (run step (t.step (.call (.remove a))) pre).book.listPeers) ↔
      Admits step (Settled a) (t.step (.call (.remove a))) acts := by
  refine (admits_iff_on (I := Gone a) (Q := Spares a) (fun _ h => h.inactive) ?_ ?_ hspare
    (removePeer_gone ha)).symm
  · intro t act hs h hok
    exact (h.step hs).1 hok
  · intro t act hs h hno hout
    exact hout ((h.step hs).2 hno)

/-- A node with one active peer, to which a send is under way. -/
def sending : Traffic where
  book := (PeerBook.init { nodeId := "n1" } .empty (.fin 0)).step
    (.register { address := "10.0.0.2:9000" } (.fin 1))
  inFlight := ["10.0.0.2:9000"]

/-- The send fails after the removal, then another peer is approved. -/
def lateFailure : List Act :=
  [.ended "10.0.0.2:9000" (.fin 3) false, .call (.approve "10.0.0.3:9000")]

theorem removed_peer_returns : ¬ ∀ (t : Traffic) (a : String), a ≠ t.book.selfRegistryAddress →
    ∀ acts : List Act, (∀ act ∈ acts, Spares a act) →
      a ∉ (run step (t.step (.call (.remove a))) acts).book.listPeers := by
  intro h
  refine h sending "10.0.0.2:9000" (by decide +kernel) lateFailure ?_ (by decide +kernel)
  simp [lateFailure, Spares]

/-- The same run without the approval. -/
theorem removed_stays_removed_quiet : "10.0.0.2:9000" ≠ sending.book.selfRegistryAddress ∧
    ∀ pre, pre <+: lateFailure.take 1 →
      "10.0.0.2:9000" ∉ (run step (sending.step (.call (.remove "10.0.0.2:9000"))) pre).book.listPeers := by
  have hother : "10.0.0.2:9000" ≠ sending.book.selfRegistryAddress := by decide +kernel
  refine ⟨hother, (removed_stays_removed_iff sending "10.0.0.2:9000" hother (lateFailure.take 1) ?_).2 ?_⟩
  · simp [lateFailure, Spares]
  · exact ⟨fun hact => absurd hact id, trivial⟩

end Traffic
end Mdrj.L4
