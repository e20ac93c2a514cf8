import Mathlib
import Mdrj.Core.Runs
import Mdrj.L1Encoding.Codec
import Mdrj.L4Node.Node

/-!
# The collection policy

Which kinds of events are registered is a table of the process. An operator
changes it by `set_collection_policy`, which first writes the table and then
emits an event that tells of the change. A change is silent if nothing was
stored that names it.

How an emission ends is an input here (`Emission`): a storage may be full or
locked. `emitEvent_emission` says that the emission of the node is one of
these.

**Results.**
* `policy_witnessed_iff`: in a run of calls no change is silent if and only
  if each call is refused, asks for the value that is there, or has an
  emission that stores its event.
-/
namespace Mdrj.L4.Policy
open Mdrj.Core Mdrj.L1 Mdrj.L3

/-! ## The catalog -/

/-- What the catalog file says of a kind. -/
structure Descriptor where
  cls : String
  registryEnabled : Option Json := none

/-- `EVENT_CATALOG` and `_CATALOG_METADATA`. -/
structure Catalog where
  classes : Dict String EventClass
  registry : Dict String Bool

/-- mirrors mdrj/event_catalog.py:36-96 for the file that is read -/
def Catalog.loadFromJson (events : List (String × Descriptor)) : Catalog :=
  events.foldl (fun catalog (kind, descriptor) =>
    match EventClass.fromStr descriptor.cls with
    | none => catalog
    | some cls =>
      { classes := Dict.set catalog.classes kind cls
        registry := Dict.set catalog.registry kind ((descriptor.registryEnabled.map Json.truthy).getD true) })
    ⟨[], []⟩

def Catalog.isKnownEventKind (catalog : Catalog) (kind : String) : Bool := (Dict.get catalog.classes kind).isSome

/-- mirrors mdrj/event_catalog.py:372-382 -/
def Catalog.registryEnabledFor (catalog : Catalog) (kind : String) : Bool :=
  (Dict.get catalog.registry kind).getD true

/-- mirrors mdrj/event_catalog.py:385-396 -/
def Catalog.setRegistryEnabled (catalog : Catalog) (kind : String) (enabled : Bool) : Catalog × Bool :=
  match Dict.get catalog.registry kind with
  | none => (catalog, false)
  | some _ => ({ catalog with registry := Dict.set catalog.registry kind enabled }, true)

/-- mirrors mdrj/event_catalog.py:399-413 -/
def Catalog.collectionPolicyHash (catalog : Catalog) : String :=
  let items := catalog.registry.insertionSort fun a b => a.1 ≤ b.1
  Sha256.hexdigest (";".intercalate (items.map fun (kind, enabled) => kind ++ "=" ++ if enabled then "1" else "0"))

namespace Catalog
variable {catalog : Catalog} {kind : String} {enabled : Bool}

/-- After a change, the kind has the new value and every other kind its old one. -/
theorem registryEnabledFor_set (h : kind ∈ Dict.keys catalog.registry) (other : String) :
    (catalog.setRegistryEnabled kind enabled).1.registryEnabledFor other =
      if kind = other then enabled else catalog.registryEnabledFor other := by
  obtain ⟨old, hold⟩ := Dict.mem_keys.1 h
  unfold setRegistryEnabled registryEnabledFor
  rw [hold]
  dsimp only
  rw [Dict.get_set]
  split
  · rfl
  · rfl

/-- A change keeps the kinds and their classes. -/
theorem setRegistryEnabled_classes : (catalog.setRegistryEnabled kind enabled).1.classes = catalog.classes := by
  unfold setRegistryEnabled
  split
  · rfl
  · rfl

theorem setRegistryEnabled_keys (other : String) :
    other ∈ Dict.keys (catalog.setRegistryEnabled kind enabled).1.registry ↔ other ∈ Dict.keys catalog.registry := by
  unfold setRegistryEnabled
  split
  · rfl
  · next hold =>
    have hkey : kind ∈ Dict.keys catalog.registry := Dict.mem_keys.2 ⟨_, hold⟩
    rw [Dict.mem_keys_set]
    exact ⟨fun h => h.elim (fun heq => heq ▸ hkey) id, .inr⟩

theorem setRegistryEnabled_snd : (catalog.setRegistryEnabled kind enabled).2 = true ↔
    kind ∈ Dict.keys catalog.registry := by
  rw [Dict.mem_keys]
  unfold setRegistryEnabled
  cases Dict.get catalog.registry kind <;> simp

end Catalog

/-! ## Emissions -/

/-- How a call of `emit_event` ends: whether the event is stored, and what is
raised, before or after. -/
structure Emission where
  stored : Bool
  raised : Option PyError

/-- Class and payload of the stored events. -/
abbrev Journal := List (EventClass × Json)

def Emission.journal (emission : Emission) (journal : Journal) (cls : EventClass) (payload : Json) : Journal :=
  if emission.stored then journal ++ [(cls, payload)] else journal

def journalOf (n : Node) : Journal := n.storage.events.map fun row => (row.event.cls, row.event.payload)

theorem recompute_journal (n : Node) : journalOf n.recomputeConsensus.node = journalOf n := by
  obtain ⟨states, hnode⟩ := n.recomputeConsensus_node
  rw [hnode]
  exact DAGStorage.replaceConsensusState_map (fun _ _ => rfl) n.storage states

/-- An event that is stored stands at the end. -/
theorem storeEnvelope_journal {s s' : DAGStorage} {envelope : Envelope} {consensusTs : Option Flt} {now : Flt}
    {stored : Bool} (raised : Option PyError) (h : s.storeEnvelope envelope consensusTs now = .ok (s', stored)) :
    s'.events.map (fun row => (row.event.cls, row.event.payload)) =
      (⟨stored, raised⟩ : Emission).journal (s.events.map fun row => (row.event.cls, row.event.payload))
        envelope.event.cls envelope.event.payload := by
  have hunfilled : DAGStorage.Unfilled fun row => (row.event.cls, row.event.payload) := fun _ _ _ _ => rfl
  rcases DAGStorage.storeEnvelope_map hunfilled h with
    ⟨-, rfl, hmap⟩ | ⟨-, rfl, hmap⟩
  · exact hmap
  · exact hmap

/-- An emission of the node stores its event at the end of the journal, or
nothing, and raises or does not. -/
theorem emitEvent_emission (n : Node) (cls : EventClass) (payload : Json) (ts now : Flt) (pick : Nat) :
    ∃ emission : Emission,
      journalOf (n.emitEvent cls payload ts now pick).node = emission.journal (journalOf n) cls payload ∧
      (emission.raised = none ↔ ∃ stored, (n.emitEvent cls payload ts now pick).result = .ok stored) := by
  unfold Node.emitEvent Node.persistEnvelope
  dsimp only
  cases hs : n.storage.storeEnvelope ⟨n.nextEvent cls payload ts pick, [⟨some n.config.nodeId, some ts⟩]⟩
      (n.nextEvent cls payload ts pick).consensusTs now with
  | error err => exact ⟨⟨false, some err⟩, rfl, by simp⟩
  | ok p =>
    obtain ⟨s, stored⟩ := p
    have hjournal : s.events.map (fun row => (row.event.cls, row.event.payload)) =
        (⟨stored, none⟩ : Emission).journal (journalOf n) cls payload := storeEnvelope_journal none hs
    have hrec := recompute_journal { n with
      storage := s
      vectorClock := mergeClock n.vectorClock (n.nextEvent cls payload ts pick).vclock
      anchors := n.anchorIds }
    dsimp only
    split
    · rename_i n' err hn
      rw [hn] at hrec
      exact ⟨⟨stored, some err⟩, hrec.trans hjournal, by simp⟩
    · rename_i n' hn
      rw [hn] at hrec
      exact ⟨⟨stored, none⟩, hrec.trans hjournal, by simp⟩

/-! ## Changing the policy -/

/-- One character inside a quoted text. -/
def quotedChar (printable : Char → Bool) (quote c : Char) : List Char :=
  let n := c.toNat
  if c = quote ∨ c = '\\' then ['\\', c]
  else if n = 9 then ['\\', 't']
  else if n = 10 then ['\\', 'n']
  else if n = 13 then ['\\', 'r']
  else if printable c then [c]
  else if n < 256 then ['\\', 'x', Sha256.hexDigit (n / 16), Sha256.hexDigit (n % 16)]
  else if n < 65536 then '\\' :: 'u' :: hex4 n
  else '\\' :: 'U' :: (hex4 (n / 65536) ++ hex4 (n % 65536))

/-- `repr` of a text. -/
def quoted (printable : Char → Bool) (s : String) : String :=
  let quote := if '\'' ∈ s.toList ∧ '"' ∉ s.toList then '"' else '\''
  String.ofList (quote :: (s.toList.flatMap (quotedChar printable quote) ++ [quote]))

/-- mirrors mdrj/node.py:1203-1208 -/
def policyProtectedKinds : List String :=
  ["node_identity", "heartbeat", "node_hourly_status", "mdrj_service_start", "mdrj_service_stop",
    "mdrj_service_killed", "host_boot", "host_reboot", "mdrj_tamper_detected",
    "mdrj_event_replication_failed", "mdrj_collection_policy_changed"]

/-- What a node has of the policy. -/
structure PolicyNode where
  nodeId : String
  ingestHostId : String    -- `config.linux_ingest.host_id`, empty if there is none
  catalog : Catalog
  journal : Journal

def PolicyNode.hostId (n : PolicyNode) : String := if n.ingestHostId = "" then n.nodeId else n.ingestHostId

structure PolicyCall where
  kind : String
  enabled : Bool
  emission : Emission
  changedAt : Flt

structure PolicyChange where
  kind : String
  previousEnabled : Bool
  newEnabled : Bool
  policyHash : String

/-- The event that tells of a change. -/
def changedPayload (n : PolicyNode) (call : PolicyCall) (previous : Bool) (policyHash : String) : Json :=
  .obj [("event_kind", .str "mdrj_collection_policy_changed"), ("node_id", .str n.nodeId),
    ("host_id", .str n.hostId), ("changed_kind", .str call.kind), ("previous_enabled", .bool previous),
    ("new_enabled", .bool call.enabled), ("policy_hash", .str policyHash), ("changed_at", .float call.changedAt)]

section Calls
variable (printable : Char → Bool)

/-- mirrors mdrj/node.py:1210-1244 -/
def setCollectionPolicy (n : PolicyNode) (call : PolicyCall) : PolicyNode × Except PyError PolicyChange :=
  if !n.catalog.isKnownEventKind call.kind then
    (n, .error (.keyError ("unknown event_kind: " ++ quoted printable call.kind)))
  else if call.kind ∈ policyProtectedKinds then
    (n, .error (.valueError ("event_kind " ++ quoted printable call.kind ++ " is protected and cannot be disabled")))
  else
    let previous := n.catalog.registryEnabledFor call.kind
    match n.catalog.setRegistryEnabled call.kind call.enabled with
    | (_, false) => (n, .error (.keyError ("cannot set policy for " ++ quoted printable call.kind)))
    | (catalog, true) =>
      -- the table is written; whatever the emission does, it stays so
      let policyHash := catalog.collectionPolicyHash
      let journal := call.emission.journal n.journal .A (changedPayload n call previous policyHash)
      let n := { n with catalog, journal }
      match call.emission.raised with
      | some e => (n, .error e)
      | none => (n, .ok ⟨call.kind, previous, call.enabled, policyHash⟩)

def PolicyNode.step (n : PolicyNode) (call : PolicyCall) : PolicyNode := (setCollectionPolicy printable n call).1

/-- The call gets as far as the table. -/
def Accepted (n : PolicyNode) (kind : String) : Prop :=
  n.catalog.isKnownEventKind kind = true ∧ kind ∉ policyProtectedKinds ∧ kind ∈ Dict.keys n.catalog.registry

instance (n : PolicyNode) (kind : String) : Decidable (Accepted n kind) := inferInstanceAs (Decidable (_ ∧ _))

/-- An event of the journal that tells of this change. -/
def Tells (kind : String) (previous new : Bool) : EventClass × Json → Prop
  | (.A, .obj fields) =>
    Dict.get fields "event_kind" = some (.str "mdrj_collection_policy_changed") ∧
      Dict.get fields "changed_kind" = some (.str kind) ∧
      Dict.get fields "previous_enabled" = some (.bool previous) ∧
      Dict.get fields "new_enabled" = some (.bool new)
  | _ => False

/-- Every kind whose value differs is told of in what was stored since. -/
def Witnessed (n n' : PolicyNode) : Prop :=
  ∀ kind, n'.catalog.registryEnabledFor kind ≠ n.catalog.registryEnabledFor kind →
    ∃ entry ∈ n'.journal.drop n.journal.length,
      Tells kind (n.catalog.registryEnabledFor kind) (n'.catalog.registryEnabledFor kind) entry

/-- The call is refused, asks for the value that is there, or its event is
stored. -/
def Told (n : PolicyNode) (call : PolicyCall) : Prop :=
  Accepted n call.kind → n.catalog.registryEnabledFor call.kind ≠ call.enabled → call.emission.stored = true

end Calls

section Steps
variable {printable : Char → Bool} {n : PolicyNode} {call : PolicyCall}

theorem step_refused (h : ¬ Accepted n call.kind) : n.step printable call = n := by
  unfold PolicyNode.step setCollectionPolicy
  split
  · rfl
  · split
    · rfl
    · next hknown hfree =>
      have hkey : (n.catalog.setRegistryEnabled call.kind call.enabled).2 = false := by
        rw [← Bool.not_eq_true, Catalog.setRegistryEnabled_snd]
        intro hkey
        exact h ⟨by simpa using hknown, hfree, hkey⟩
      dsimp only
      split
      · rfl
      · next hset =>
        rw [hset] at hkey
        cases hkey

/-- An accepted call writes the table, and the journal as its emission goes. -/
theorem step_accepted (h : Accepted n call.kind) :
    (n.step printable call).catalog = (n.catalog.setRegistryEnabled call.kind call.enabled).1 ∧
      (n.step printable call).journal = call.emission.journal n.journal .A (changedPayload n call
        (n.catalog.registryEnabledFor call.kind)
        (n.catalog.setRegistryEnabled call.kind call.enabled).1.collectionPolicyHash) := by
  obtain ⟨hknown, hfree, hkey⟩ := h
  have hset : (n.catalog.setRegistryEnabled call.kind call.enabled).2 = true := Catalog.setRegistryEnabled_snd.2 hkey
  unfold PolicyNode.step setCollectionPolicy
  rw [hknown, if_neg (by decide), if_neg hfree]
  dsimp only
  split
  · next hset' =>
    rw [hset'] at hset
    cases hset
  · next catalog hset' =>
    rw [hset']
    dsimp only
    split
    · exact ⟨rfl, rfl⟩
    · exact ⟨rfl, rfl⟩

/-- After an accepted call, its kind has the value asked for. -/
theorem step_value (h : Accepted n call.kind) (kind : String) :
    (n.step printable call).catalog.registryEnabledFor kind =
      if call.kind = kind then call.enabled else n.catalog.registryEnabledFor kind := by
  rw [(step_accepted h).1, Catalog.registryEnabledFor_set h.2.2]

/-- What a call is accepted for does not change. -/
theorem accepted_step (kind : String) : Accepted (n.step printable call) kind ↔ Accepted n kind := by
  by_cases haccepted : Accepted n call.kind
  · unfold Accepted Catalog.isKnownEventKind
    rw [(step_accepted haccepted).1, Catalog.setRegistryEnabled_classes, Catalog.setRegistryEnabled_keys]
  · rw [step_refused haccepted]

theorem changedPayload_tells (n : PolicyNode) (call : PolicyCall) (previous : Bool) (policyHash : String) :
    Tells call.kind previous call.enabled (.A, changedPayload n call previous policyHash) :=
  ⟨rfl, rfl, rfl, rfl⟩

/-- One call changes nothing silently if and only if it is told of. -/
theorem witnessed_step_iff : Witnessed n (n.step printable call) ↔ Told n call := by
  by_cases haccepted : Accepted n call.kind
  · have hjournal : (n.step printable call).journal = call.emission.journal n.journal .A (changedPayload n call
        (n.catalog.registryEnabledFor call.kind)
        (n.catalog.setRegistryEnabled call.kind call.enabled).1.collectionPolicyHash) := (step_accepted haccepted).2
    constructor
    · intro h _ hne
      obtain ⟨entry, hentry, -⟩ := h call.kind (by rw [step_value haccepted, if_pos rfl]; exact hne.symm)
      cases hstored : call.emission.stored with
      | true => rfl
      | false =>
        rw [hjournal, Emission.journal, hstored] at hentry
        simp at hentry
    · intro h kind hne
      rw [step_value haccepted] at hne ⊢
      split at hne
      · next hkind =>
        subst hkind
        rw [if_pos rfl, hjournal, Emission.journal, h haccepted hne.symm, if_pos rfl, List.drop_left]
        exact ⟨_, List.mem_singleton_self _, changedPayload_tells n call _ _⟩
      · exact absurd rfl hne
  · rw [step_refused haccepted]
    exact ⟨fun _ h => absurd h haccepted, fun _ _ hne => absurd rfl hne⟩

/-- **No silent change.** In a run of calls, each leaves behind an event that
tells of what it changed if and only if each call is refused, asks for the
value that is there, or has an emission that stores its event. -/
theorem policy_witnessed_iff (calls : List PolicyCall) (n : PolicyNode) :
    (∀ pre call, pre ++ [call] <+: calls →
      Witnessed (run (PolicyNode.step printable) n pre) (run (PolicyNode.step printable) n (pre ++ [call]))) ↔
    ∀ pre call, pre ++ [call] <+: calls → Told (run (PolicyNode.step printable) n pre) call := by
  refine forall₃_congr fun pre call _ => ?_
  rw [run_concat]
  exact witnessed_step_iff

end Steps

/-! ## A disk that is full -/

/-- The kinds the auth log ingestor reports, as the catalog file has them. -/
def loginCatalog : Catalog :=
  Catalog.loadFromJson [("admin_ssh_login_success", { cls := "A" }), ("failed_login_burst", { cls := "A" }),
    ("privilege_escalation", { cls := "A" })]

def fullDisk : PolicyCall :=
  ⟨"admin_ssh_login_success", false, ⟨false, some (.osError "database or disk is full")⟩, .fin 1000⟩

def ascii (c : Char) : Bool := 32 ≤ c.toNat && c.toNat < 127

/-- The storage refuses the event: the logins are off, and nothing tells of
it. -/
theorem policy_changed_silently :
    ¬ ∀ pre call, pre ++ [call] <+: [fullDisk] →
      Witnessed (run (PolicyNode.step ascii) ⟨"n", "", loginCatalog, []⟩ pre)
        (run (PolicyNode.step ascii) ⟨"n", "", loginCatalog, []⟩ (pre ++ [call])) := by
  intro h
  have hsilent := h [] fullDisk (List.prefix_refl _)
  obtain ⟨entry, hentry, -⟩ := hsilent "admin_ssh_login_success" (by decide)
  have hjournal : (run (PolicyNode.step ascii) ⟨"n", "", loginCatalog, []⟩ [fullDisk]).journal = [] := rfl
  rw [List.nil_append, hjournal] at hentry
  cases hentry

end Mdrj.L4.Policy
