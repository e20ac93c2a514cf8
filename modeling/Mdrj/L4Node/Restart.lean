import Mdrj.Core.Runs
import Mdrj.L4Node.Peers

/-!
# Restarting on a registry

Opening the database normalises the roles of the table, and `Node.__init__`
enters the node itself and the peers of its configuration. Both leave alone
what an operator has decided about a peer.

Results:
* `registry_sound`: every registry that the node's operations reach has normal
  roles and says where each row came from.
* `restart_keeps_decisions`: a restart keeps the decisions, adds only the own
  row and configured peers, and a second one changes nothing but `last_seen`
  and `healthy`.
-/
namespace Mdrj.L4
open Mdrj.Core Mdrj.L1 Mdrj.L3

/-! ## The migration -/

/-- `TRIM` of SQLite takes blanks only. -/
def sqlTrim (s : String) : String :=
  String.ofList ((s.toList.dropWhile (· = ' ')).reverse.dropWhile (· = ' ')).reverse

/-- `LOWER` of SQLite knows ASCII letters only. -/
def sqlLower (s : String) : String := String.ofList (s.toList.map Char.toLower)

/-- The two updates of the role. -/
def migratedRole (role : String) : String :=
  let role := if sqlTrim role = "" then "node" else role
  if sqlLower (sqlTrim role) ∉ ["node", "responder"] then "node" else role

/-- A table that has all columns. A status is one of three words, so the last
update finds nothing.
mirrors mdrj/storage.py:143-170 -/
def PeerTable.ensurePeersSchema (t : PeerTable) : PeerTable :=
  t.update fun row => { row with role := migratedRole row.role }

/-! ## Sound rows -/

/-- The row says where it came from, and its role is a normal one. -/
structure PeerRow.Sound (row : PeerRow) : Prop where
  source : row.source ≠ ""
  role : row.role = "node" ∨ row.role = "responder"

def PeerTable.Sound (t : PeerTable) : Prop := ∀ address row, t.get address = some row → row.Sound

theorem normalizeNodeRole_normal (value : String) :
    normalizeNodeRole value = "node" ∨ normalizeNodeRole value = "responder" := by
  unfold normalizeNodeRole
  split
  · exact .inr rfl
  · exact .inl rfl

theorem normalizeNodeRole_of_normal {role : String} (h : role = "node" ∨ role = "responder") :
    normalizeNodeRole role = role := by
  rcases h with rfl | rfl
  · decide +kernel
  · decide +kernel

theorem migratedRole_of_normal {role : String} (h : role = "node" ∨ role = "responder") :
    migratedRole role = role := by
  rcases h with rfl | rfl
  · decide +kernel
  · decide +kernel

theorem orText_ne {a b : String} (hb : b ≠ "") : orText a b ≠ "" := by
  unfold orText
  split
  · exact hb
  · assumption

theorem orText_of_ne {a : String} (b : String) (ha : a ≠ "") : orText a b = a := if_neg ha

theorem PeerRow.change_sound (row : PeerRow) (changes : PeerChanges) : (row.change changes).Sound := by
  unfold PeerRow.change
  constructor
  · dsimp only
    exact orText_ne (by decide)
  · dsimp only
    exact normalizeNodeRole_normal _

namespace PeerTable
variable {t : PeerTable}

theorem sound_empty : Sound .empty := fun _ _ h => nomatch h

theorem Sound.put (h : t.Sound) (address : String) {row : PeerRow} (hrow : row.Sound) : Sound (t.put address row) := by
  intro other row' hget
  by_cases heq : address = other
  · subst heq
    rw [Table.get_put_self] at hget
    exact Option.some.inj hget ▸ hrow
  · rw [Table.get_put_ne t row heq] at hget
    exact h other row' hget

theorem Sound.ensurePeer (h : t.Sound) (address : String) {new : NewPeer} (hnew : new.source ≠ "") :
    (t.ensurePeer address new).Sound := by
  unfold PeerTable.ensurePeer
  apply h.put
  split
  · constructor
    · dsimp only
      exact orText_ne hnew
    · dsimp only
      exact normalizeNodeRole_normal _
  · constructor
    · exact hnew
    · dsimp only
      exact normalizeNodeRole_normal _

theorem Sound.updatePeer (h : t.Sound) (address : String) (changes : PeerChanges) :
    (t.updatePeer address changes).1.Sound := by
  unfold PeerTable.updatePeer
  split
  · exact h
  · exact h.put address (PeerRow.change_sound _ changes)

theorem Sound.upsertPeer (h : t.Sound) (address : String) (lastSeen : Flt) (healthy : Bool) :
    (t.upsertPeer address lastSeen healthy).Sound := by
  unfold PeerTable.upsertPeer
  apply h.put
  split
  · next row hget => exact ⟨(h address row hget).source, (h address row hget).role⟩
  · exact ⟨(by decide : "runtime" ≠ ""), .inl rfl⟩

theorem Sound.deletePeer (h : t.Sound) (address : String) : (t.deletePeer address).Sound := by
  intro other row hget
  unfold PeerTable.deletePeer at hget
  rw [Table.get_erase] at hget
  split at hget
  · cases hget
  · exact h other row hget

/-- The migration finds nothing to do in a sound table. -/
theorem Sound.ensurePeersSchema (h : t.Sound) : t.ensurePeersSchema = t := by
  apply Table.update_eq_self
  intro address row hget
  rw [migratedRole_of_normal (h address row hget).role]

end PeerTable

namespace PeerBook

/-! ## A start of the node -/

/-- `Node.__init__`: the storage is opened first.
mirrors mdrj/node.py:83-111 -/
def restart (config : PeerConfig) (table : PeerTable) (now : Flt) : PeerBook :=
  init config table.ensurePeersSchema now

/-- What a start enters, in order. -/
def seeds (config : PeerConfig) (now : Flt) : List (String × NewPeer) :=
  ("self:" ++ config.nodeId,
    { nodeId := config.nodeId, lastSeen := some now, healthy := true, note := "Текущий узел", source := "self",
      role := normalizeNodeRole config.role }) ::
    config.peers.map fun address => (address, { lastSeen := some now, healthy := true, source := "config" })

def enter (t : PeerTable) (seed : String × NewPeer) : PeerTable := t.ensurePeer seed.1 seed.2

theorem init_table (config : PeerConfig) (table : PeerTable) (now : Flt) :
    (init config table now).table = (seeds config now).foldl enter table := by
  unfold init seeds reloadPeersFromStorage
  dsimp only
  rw [List.foldl_cons, List.foldl_map]
  rfl

theorem enter_sound {t : PeerTable} (h : t.Sound) {seed : String × NewPeer} (hseed : seed.2.source ≠ "") :
    (enter t seed).Sound := h.ensurePeer seed.1 hseed

theorem seeds_source {config : PeerConfig} {now : Flt} : ∀ seed ∈ seeds config now, seed.2.source ≠ "" := by
  intro seed hseed
  rcases List.mem_cons.1 hseed with rfl | hpeer
  · exact (by decide : "self" ≠ "")
  · obtain ⟨address, -, rfl⟩ := List.mem_map.1 hpeer
    exact (by decide : "config" ≠ "")

theorem mem_seeds_address {config : PeerConfig} {now : Flt} {seed : String × NewPeer} (h : seed ∈ seeds config now) :
    seed.1 = "self:" ++ config.nodeId ∨ seed.1 ∈ config.peers := by
  rcases List.mem_cons.1 h with rfl | hpeer
  · exact .inl rfl
  · obtain ⟨address, haddress, rfl⟩ := List.mem_map.1 hpeer
    exact .inr haddress

theorem sound_enter {seeds : List (String × NewPeer)} (hseeds : ∀ seed ∈ seeds, seed.2.source ≠ "") {t : PeerTable}
    (h : t.Sound) : (seeds.foldl enter t).Sound := by
  induction seeds generalizing t with
  | nil => exact h
  | cons seed rest ih =>
    obtain ⟨hseed, hrest⟩ := List.forall_mem_cons.1 hseeds
    exact ih hrest (enter_sound h hseed)

theorem restart_sound {t : PeerTable} (h : t.Sound) (config : PeerConfig) (now : Flt) :
    (restart config t now).table.Sound := by
  unfold restart
  rw [h.ensurePeersSchema, init_table]
  exact sound_enter seeds_source h

/-! ## The registries that are reached -/

/-- What writes to the table of peers. -/
inductive RegistryAct where
  | call (a : Action)
  | sendEnded (address : String) (healthy : Bool) (now : Flt)      -- mdrj/gossip.py:146-153
  | identified (address nodeId : String) (now : Flt)               -- mdrj/node.py:653-658, 2297-2302
  | reloaded
  | restarted (config : PeerConfig) (now : Flt)

def registryStep (b : PeerBook) : RegistryAct → PeerBook
  | .call a => b.step a
  | .sendEnded address healthy now => { b with table := b.table.upsertPeer address now healthy }
  | .identified address nodeId now =>
    { b with table := (b.table.updatePeer address
        { nodeId := some nodeId, lastSeen := some now, healthy := some true }).1 }
  | .reloaded => b.reloadPeersFromStorage
  | .restarted config now => restart config b.table now

/-- A registration ends with an update of its row. -/
theorem registerPeer_table (b : PeerBook) (r : Registration) (now : Flt) :
    (b.registerPeer r now).1.table =
      ((b.table.ensurePeer r.address (r.new now)).updatePeer r.address (r.changes now)).1 := by
  unfold registerPeer
  dsimp only
  split
  · next htable => rw [htable]
  · next htable =>
    rw [htable]
    split <;> rfl

theorem registerPeer_sound {b : PeerBook} (h : b.table.Sound) (r : Registration) (now : Flt) :
    (b.registerPeer r now).1.table.Sound := by
  rw [registerPeer_table]
  intro address row hget
  by_cases heq : r.address = address
  · subst heq
    rw [updatePeer_get_self] at hget
    obtain ⟨row', -, rfl⟩ := Option.map_eq_some_iff.1 hget
    exact PeerRow.change_sound row' _
  · rw [updatePeer_get_ne _ _ heq, ensurePeer_get_ne _ _ heq] at hget
    exact h address row hget

theorem step_sound {b : PeerBook} (h : b.table.Sound) (a : Action) : (b.step a).table.Sound := by
  cases a with
  | register r now => exact registerPeer_sound h r now
  | approve address => exact h.updatePeer address _
  | reject address => exact h.updatePeer address _
  | update u now =>
    unfold step updatePeer
    dsimp only
    split
    · exact h.updatePeer u.address _
    · exact h.updatePeer u.address _
  | remove address =>
    unfold step removePeer
    dsimp only
    split
    · exact h
    · exact h.deletePeer address
  | discovered address nodeId source now =>
    unfold step onDiscoveredPeer
    dsimp only
    split
    · exact h
    · exact registerPeer_sound h _ now

theorem registryStep_sound {b : PeerBook} (h : b.table.Sound) (a : RegistryAct) : (registryStep b a).table.Sound := by
  cases a with
  | call a => exact step_sound h a
  | sendEnded address healthy now => exact h.upsertPeer address now healthy
  | identified address nodeId now => exact h.updatePeer address _
  | reloaded => exact h
  | restarted config now => exact restart_sound h config now

/-- **Registries.** Whatever a node does from its first start on, the rows stay
sound. -/
theorem registry_sound (config : PeerConfig) (now : Flt) (acts : List RegistryAct) :
    (run registryStep (restart config .empty now) acts).table.Sound :=
  run_always (I := fun b : PeerBook => b.table.Sound) (fun _ a h => registryStep_sound h a) acts
    (restart_sound PeerTable.sound_empty config now)

/-! ## What a start keeps -/

/-- What an operator has decided about a peer, or learned of it. -/
structure Decided (row row' : PeerRow) : Prop where
  approvalStatus : row'.approvalStatus = row.approvalStatus
  enabled : row'.enabled = row.enabled
  role : row'.role = row.role
  source : row'.source = row.source
  note : row.note ≠ "" → row'.note = row.note
  nodeId : row.nodeId ≠ "" → row'.nodeId = row.nodeId

theorem Decided.refl (row : PeerRow) : Decided row row := ⟨rfl, rfl, rfl, rfl, fun _ => rfl, fun _ => rfl⟩

theorem Decided.trans {row row' row'' : PeerRow} (h : Decided row row') (h' : Decided row' row'') :
    Decided row row'' where
  approvalStatus := h'.approvalStatus.trans h.approvalStatus
  enabled := h'.enabled.trans h.enabled
  role := h'.role.trans h.role
  source := h'.source.trans h.source
  note hne := (h'.note (h.note hne ▸ hne)).trans (h.note hne)
  nodeId hne := (h'.nodeId (h.nodeId hne ▸ hne)).trans (h.nodeId hne)

/-- The row of an address that is entered again. -/
def merged (row : PeerRow) (new : NewPeer) : PeerRow :=
  { row with
    nodeId := orText row.nodeId new.nodeId, lastSeen := new.lastSeen.or row.lastSeen,
    healthy := new.healthy, note := orText row.note new.note,
    source := orText row.source new.source, role := normalizeNodeRole row.role }

theorem ensurePeer_present {t : PeerTable} {address : String} {row : PeerRow} (h : t.get address = some row)
    (new : NewPeer) : t.ensurePeer address new = t.put address (merged row new) := by
  unfold PeerTable.ensurePeer
  rw [h]
  rfl

theorem merged_decided {row : PeerRow} (h : row.Sound) (new : NewPeer) : Decided row (merged row new) := by
  have hrole := normalizeNodeRole_of_normal h.role
  unfold merged
  rw [hrole]
  exact ⟨rfl, rfl, rfl, orText_of_ne new.source h.source, orText_of_ne new.note, orText_of_ne new.nodeId⟩

/-- Entering an address keeps what is decided about every peer. -/
theorem enter_decided {t : PeerTable} (h : t.Sound) (seed : String × NewPeer) {address : String} {row : PeerRow}
    (hget : t.get address = some row) : ∃ row', (enter t seed).get address = some row' ∧ Decided row row' := by
  by_cases heq : seed.1 = address
  · subst heq
    refine ⟨merged row seed.2, ?_, merged_decided (h _ row hget) seed.2⟩
    unfold enter
    rw [ensurePeer_present hget, Table.get_put_self]
  · refine ⟨row, ?_, Decided.refl row⟩
    unfold enter
    rw [ensurePeer_get_ne t seed.2 heq, hget]

theorem entered_decided {seeds : List (String × NewPeer)} (hseeds : ∀ seed ∈ seeds, seed.2.source ≠ "")
    {t : PeerTable} (h : t.Sound) {address : String} {row : PeerRow} (hget : t.get address = some row) :
    ∃ row', (seeds.foldl enter t).get address = some row' ∧ Decided row row' := by
  induction seeds generalizing t row with
  | nil => exact ⟨row, hget, Decided.refl row⟩
  | cons seed rest ih =>
    obtain ⟨hseed, hrest⟩ := List.forall_mem_cons.1 hseeds
    obtain ⟨row', hget', hdecided⟩ := enter_decided h seed hget
    obtain ⟨row'', hget'', hdecided'⟩ := ih hrest (enter_sound h hseed) hget'
    exact ⟨row'', hget'', hdecided.trans hdecided'⟩

/-- Only the addresses that are entered get new rows. -/
theorem entered_new {seeds : List (String × NewPeer)} {t : PeerTable} {address : String} {row : PeerRow}
    (hget : (seeds.foldl enter t).get address = some row) :
    (∃ row₀, t.get address = some row₀) ∨ ∃ seed ∈ seeds, seed.1 = address := by
  induction seeds generalizing t with
  | nil => exact .inl ⟨row, hget⟩
  | cons seed rest ih =>
    by_cases heq : seed.1 = address
    · exact .inr ⟨seed, List.mem_cons_self, heq⟩
    · rcases ih hget with ⟨row₀, hrow₀⟩ | ⟨seed', hseed', hseed'eq⟩
      · unfold enter at hrow₀
        rw [ensurePeer_get_ne t seed.2 heq] at hrow₀
        exact .inl ⟨row₀, hrow₀⟩
      · exact .inr ⟨seed', List.mem_cons_of_mem _ hseed', hseed'eq⟩

/-! ## A second start -/

/-- A row without `last_seen` and `healthy`. -/
def forget (row : PeerRow) : PeerRow := { row with lastSeen := none, healthy := true }

def forgotten (t : PeerTable) : Dict String PeerRow := t.rows.map fun p => (p.1, forget p.2)

/-- Entering the peer again adds nothing to its row. -/
structure Settled (new : NewPeer) (row : PeerRow) : Prop where
  nodeId : row.nodeId ≠ "" ∨ new.nodeId = ""
  note : row.note ≠ "" ∨ new.note = ""
  sound : row.Sound

theorem orText_settled {a b : String} (h : a ≠ "" ∨ b = "") : orText a b = a := by
  unfold orText
  split
  · next ha => rw [ha, h.resolve_left fun hne => hne ha]
  · rfl

theorem orText_settles (a b : String) : orText a b ≠ "" ∨ b = "" := by
  by_cases hb : b = ""
  · exact .inr hb
  · exact .inl (orText_ne hb)

theorem settled_orText {a b c : String} (h : a ≠ "" ∨ b = "") : orText a c ≠ "" ∨ b = "" := by
  rcases h with ha | hb
  · rw [orText_of_ne c ha]
    exact .inl ha
  · exact .inr hb

/-- The row is settled once its peer was entered. -/
theorem enter_settled {t : PeerTable} (h : t.Sound) {seed : String × NewPeer} (hseed : seed.2.source ≠ "") :
    ∃ row, (enter t seed).get seed.1 = some row ∧ Settled seed.2 row := by
  have hsound := enter_sound h hseed
  cases hget : t.get seed.1 with
  | none =>
    obtain ⟨row, hrow, hnodeId, hnote⟩ : ∃ row, (enter t seed).get seed.1 = some row ∧
        row.nodeId = seed.2.nodeId ∧ row.note = seed.2.note := by
      unfold enter PeerTable.ensurePeer
      rw [hget, Table.get_put_self]
      exact ⟨_, rfl, rfl, rfl⟩
    refine ⟨row, hrow, ?_, ?_, hsound _ row hrow⟩
    · rw [hnodeId]
      exact (em _).symm
    · rw [hnote]
      exact (em _).symm
  | some row =>
    have hrow : (enter t seed).get seed.1 = some (merged row seed.2) := by
      unfold enter
      rw [ensurePeer_present hget, Table.get_put_self]
    exact ⟨_, hrow, orText_settles _ _, orText_settles _ _, hsound _ _ hrow⟩

/-- It stays settled when others, or the same address, are entered. -/
theorem settled_enter {t : PeerTable} (h : t.Sound) {address : String} {new : NewPeer} {row : PeerRow}
    (hget : t.get address = some row) (hsettled : Settled new row) {seed : String × NewPeer}
    (hseed : seed.2.source ≠ "") : ∃ row', (enter t seed).get address = some row' ∧ Settled new row' := by
  by_cases heq : seed.1 = address
  · subst heq
    have hrow : (enter t seed).get seed.1 = some (merged row seed.2) := by
      unfold enter
      rw [ensurePeer_present hget, Table.get_put_self]
    exact ⟨_, hrow, settled_orText hsettled.nodeId, settled_orText hsettled.note,
      enter_sound h hseed _ _ hrow⟩
  · refine ⟨row, ?_, hsettled⟩
    unfold enter
    rw [ensurePeer_get_ne t seed.2 heq, hget]

/-- Entering a settled peer changes nothing but `last_seen` and `healthy`. -/
theorem forgotten_enter {t : PeerTable} {seed : String × NewPeer} {row : PeerRow} (hget : t.get seed.1 = some row)
    (hsettled : Settled seed.2 row) : forgotten (enter t seed) = forgotten t := by
  have hsame : forget (merged row seed.2) = forget row := by
    unfold merged
    rw [orText_settled hsettled.nodeId, orText_settled hsettled.note,
      orText_of_ne seed.2.source hsettled.sound.source, normalizeNodeRole_of_normal hsettled.sound.role]
    rfl
  unfold enter forgotten
  rw [ensurePeer_present hget]
  unfold Table.put
  dsimp only
  rw [Dict.map_set forget, hsame]
  exact Dict.set_get_self (Dict.get_map_values hget)

/-- A start enters nothing that the start before has not entered. -/
theorem forgotten_entered {seeds : List (String × NewPeer)} (hseeds : ∀ seed ∈ seeds, seed.2.source ≠ "")
    {t : PeerTable} (h : t.Sound)
    (hall : ∀ seed ∈ seeds, ∃ row, t.get seed.1 = some row ∧ Settled seed.2 row) :
    forgotten (seeds.foldl enter t) = forgotten t := by
  induction seeds generalizing t with
  | nil => rfl
  | cons seed rest ih =>
    obtain ⟨hseed, hrest⟩ := List.forall_mem_cons.1 hseeds
    obtain ⟨⟨row, hget, hsettled⟩, hall'⟩ := List.forall_mem_cons.1 hall
    rw [List.foldl_cons, ih hrest (enter_sound h hseed), forgotten_enter hget hsettled]
    intro seed' hseed'
    obtain ⟨row', hget', hsettled'⟩ := hall' seed' hseed'
    exact settled_enter h hget' hsettled' hseed

/-- After a start, everything it entered is settled. -/
theorem entered_settled {seeds : List (String × NewPeer)} (hseeds : ∀ seed ∈ seeds, seed.2.source ≠ "")
    {t : PeerTable} (h : t.Sound) {seed : String × NewPeer} (hmem : seed ∈ seeds) :
    ∃ row, (seeds.foldl enter t).get seed.1 = some row ∧ Settled seed.2 row := by
  -- what is settled before the rest is entered stays so
  have hstays : ∀ {rest : List (String × NewPeer)}, (∀ seed ∈ rest, seed.2.source ≠ "") →
      ∀ {t : PeerTable}, t.Sound → ∀ {row}, t.get seed.1 = some row → Settled seed.2 row →
      ∃ row, (rest.foldl enter t).get seed.1 = some row ∧ Settled seed.2 row := by
    intro rest
    induction rest with
    | nil => exact fun _ _ _ row hget hsettled => ⟨row, hget, hsettled⟩
    | cons first rest ih =>
      intro hrest t h row hget hsettled
      obtain ⟨hfirst, hrest⟩ := List.forall_mem_cons.1 hrest
      obtain ⟨row', hget', hsettled'⟩ := settled_enter h hget hsettled hfirst
      exact ih hrest (enter_sound h hfirst) hget' hsettled'
  induction seeds generalizing t with
  | nil => exact absurd hmem List.not_mem_nil
  | cons first rest ih =>
    obtain ⟨hfirst, hrest⟩ := List.forall_mem_cons.1 hseeds
    rcases List.mem_cons.1 hmem with rfl | hmem
    · obtain ⟨row, hget, hsettled⟩ := enter_settled h hfirst
      exact hstays hrest (enter_sound h hfirst) hget hsettled
    · exact ih hrest (enter_sound h hfirst) hmem

/-- What a seed asks for does not depend on the clock. -/
theorem settled_seeds {config : PeerConfig} {now now' : Flt} {t : PeerTable}
    (h : ∀ seed ∈ seeds config now, ∃ row, t.get seed.1 = some row ∧ Settled seed.2 row) :
    ∀ seed ∈ seeds config now', ∃ row, t.get seed.1 = some row ∧ Settled seed.2 row := by
  obtain ⟨⟨row, hget, hsettled⟩, hpeers⟩ := List.forall_mem_cons.1 h
  refine List.forall_mem_cons.2 ⟨⟨row, hget, hsettled.nodeId, hsettled.note, hsettled.sound⟩, ?_⟩
  intro seed hseed
  obtain ⟨address, haddress, rfl⟩ := List.mem_map.1 hseed
  obtain ⟨row, hget, hsettled⟩ := hpeers _ (List.mem_map_of_mem haddress)
  exact ⟨row, hget, hsettled.nodeId, hsettled.note, hsettled.sound⟩

/-- **A restart.** From any registry that the node's operations reach, a start
with any peers and any role keeps the decisions about every peer, adds no row
but the own one and those of configured peers, and starting once more changes
nothing but `last_seen` and `healthy`. -/
theorem restart_keeps_decisions (start config : PeerConfig) (acts : List RegistryAct) (now₀ now now' : Flt) :
    let before := (run registryStep (restart start .empty now₀) acts).table
    let after := (restart config before now).table
    (∀ address row, before.get address = some row →
      ∃ row', after.get address = some row' ∧ Decided row row') ∧
    (∀ address row', after.get address = some row' →
      (∃ row, before.get address = some row) ∨ address = "self:" ++ config.nodeId ∨ address ∈ config.peers) ∧
    forgotten (restart config after now').table = forgotten after := by
  intro before after
  have hsound : before.Sound := registry_sound start now₀ acts
  have hafter : after = (seeds config now).foldl enter before := by
    change (restart config before now).table = _
    unfold restart
    rw [hsound.ensurePeersSchema, init_table]
  have hsound' : after.Sound := restart_sound hsound config now
  refine ⟨?_, ?_, ?_⟩
  · intro address row hget
    rw [hafter]
    exact entered_decided seeds_source hsound hget
  · intro address row' hget
    rw [hafter] at hget
    rcases entered_new hget with hold | ⟨seed, hseed, rfl⟩
    · exact .inl hold
    · exact .inr (mem_seeds_address hseed)
  · have hsettled : ∀ seed ∈ seeds config now, ∃ row, after.get seed.1 = some row ∧ Settled seed.2 row := by
      intro seed hseed
      rw [hafter]
      exact entered_settled seeds_source hsound hseed
    unfold restart
    rw [hsound'.ensurePeersSchema, init_table]
    exact forgotten_entered seeds_source hsound' (settled_seeds hsettled)

end PeerBook
end Mdrj.L4
