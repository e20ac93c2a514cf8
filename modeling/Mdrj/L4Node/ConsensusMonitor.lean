import Mdrj.Core.Joined
import Mdrj.Core.Streaks
import Mdrj.L4Node.Reconfiguration
import Mdrj.L4Node.Tamper

/-!
# The consensus monitor

A node compares the digest of its finalized prefix with that of each peer and
counts the failed comparisons in a row. The digest is a hash of the ids, and
so is that of the membership; the epoch is a local counter and not compared.

Results:
* `snapshots_agree_iff`: barring a collision, and with ids that the separator
  keeps apart, two snapshots agree exactly when the nodes have finalized the
  same events in the same order and have the same members, and exactly then
  there is no reason to report.
* `consensus_health_exact`: in every run the health of a node is that of the
  last comparisons of each peer: a mismatch from the third failure in a row.
-/
namespace Mdrj.L4
open Mdrj.Core Mdrj.L1 Mdrj.L2 Mdrj.L3

/-- mirrors mdrj/node.py:2155-2167 -/
structure ConsensusDigest where
  nodeId : String
  hash : String
  eventCount : Nat
  totalEventCount : Nat
  latestEvent : Option String
  latestTotalEvent : Option String
  finalityMargin : Int
  consensusEpoch : Int
  consensusMembershipSize : Nat
  membershipSnapshotHash : String
  generatedAt : Flt

/-- `"::".join(ids)`. -/
def joinedIds (ids : List String) : String := "::".intercalate ids

/-- mirrors mdrj/node.py:2137-2167 -/
def Node.consensusSnapshot (n : Node) (membership : MembershipSnapshot) (now : Flt) : ConsensusDigest :=
  let ordered := totalOrder n.storage.allEvents []
  let ids := Node.finalizedIds n.storage.allEvents
  { nodeId := n.config.nodeId
    hash := if ids.isEmpty then Sha256.hexdigest "" else Sha256.hexdigest (joinedIds ids)
    eventCount := ids.length
    totalEventCount := ordered.length
    latestEvent := ids.getLast?
    latestTotalEvent := ordered.getLast?.map Event.id
    finalityMargin := Node.consensusFinalityMargin
    consensusEpoch := membership.epoch
    consensusMembershipSize := membership.membershipSize
    membershipSnapshotHash := membership.membership.snapshotHash
    generatedAt := now }

/-- mirrors mdrj/node.py:2137-2170, 7636-7639 -/
def FullNode.consensusDigest (h : FullNode) (now : Flt) : FullNode × ConsensusDigest :=
  let (h, membership) := h.activeConsensusMembership
  (h, h.node.consensusSnapshot membership now)

namespace ConsensusDigest

/-- mirrors mdrj/node.py:2265-2269 -/
def agrees (own peer : ConsensusDigest) : Bool :=
  peer.hash == own.hash && peer.eventCount == own.eventCount &&
    peer.membershipSnapshotHash == own.membershipSnapshotHash

/-- mirrors mdrj/node.py:2357-2374 -/
def mismatchReasons (own peer : ConsensusDigest) : List String :=
  (if peer.eventCount ≠ own.eventCount then ["event_count"] else []) ++
  (if peer.hash ≠ own.hash then ["hash"] else []) ++
  (if peer.membershipSnapshotHash ≠ own.membershipSnapshotHash then ["membership"] else []) ++
  (if peer.consensusEpoch ≠ own.consensusEpoch ∧
      peer.membershipSnapshotHash ≠ own.membershipSnapshotHash then ["epoch"] else [])

theorem agrees_iff {own peer : ConsensusDigest} : own.agrees peer = true ↔ peer.hash = own.hash ∧
    peer.eventCount = own.eventCount ∧ peer.membershipSnapshotHash = own.membershipSnapshotHash := by
  unfold agrees
  simp [and_assoc]

/-- A reason is reported exactly when the snapshots do not agree. -/
theorem mismatchReasons_eq_nil {own peer : ConsensusDigest} :
    own.mismatchReasons peer = [] ↔ own.agrees peer = true := by
  rw [agrees_iff]
  unfold mismatchReasons
  by_cases hcount : peer.eventCount = own.eventCount
  · by_cases hhash : peer.hash = own.hash
    · by_cases hmembers : peer.membershipSnapshotHash = own.membershipSnapshotHash
      · simp [hcount, hhash, hmembers]
      · simp [hcount, hhash, hmembers]
    · simp [hcount, hhash]
  · simp [hcount]

end ConsensusDigest

/-! ## What agreement says -/

/-- Ids that the separator keeps apart, such as hex digests. -/
def PlainIds (ids : List String) : Prop := ∀ id ∈ ids, id ≠ "" ∧ ':' ∉ id.toList

instance (ids : List String) : Decidable (PlainIds ids) := inferInstanceAs (Decidable (∀ id ∈ ids, _))

theorem joinedIds_injective {ids ids' : List String} (h : PlainIds ids) (h' : PlainIds ids')
    (heq : joinedIds ids = joinedIds ids') : ids = ids' := by
  have happart : ∀ {l : List String}, PlainIds l → Apart ':' (l.map String.toList) := by
    intro l hl word hword
    obtain ⟨id, hid, rfl⟩ := List.mem_map.1 hword
    refine ⟨fun hnil => (hl id hid).1 ?_, (hl id hid).2⟩
    exact String.toList_injective (hnil.trans rfl)
  have hchars := congrArg String.toList heq
  unfold joinedIds at hchars
  rw [String.toList_intercalate, String.toList_intercalate] at hchars
  have hwords : List.intercalate (':' :: [':']) (ids.map String.toList) =
      List.intercalate (':' :: [':']) (ids'.map String.toList) := hchars
  exact List.map_injective_iff.2 (fun _ _ => String.toList_injective) (joined_injective (happart h) (happart h') hwords)

/-- Barring a collision, equal digests are digests of equal lists. -/
theorem hexdigest_joinedIds {ids ids' : List String} (h : PlainIds ids) (h' : PlainIds ids')
    (hfree : ¬ Collides (joinedIds ids) (joinedIds ids')) :
    Sha256.hexdigest (joinedIds ids) = Sha256.hexdigest (joinedIds ids') ↔ ids = ids' := by
  refine ⟨fun hhash => joinedIds_injective h h' ?_, fun heq => by rw [heq]⟩
  by_contra hne
  exact hfree ⟨hne, hhash⟩

section Agreement
variable (n : Node) (epoch : Int) (members : List MembershipEntry) (now : Flt)

theorem consensusSnapshot_hash (membership : MembershipSnapshot) :
    (n.consensusSnapshot membership now).hash = Sha256.hexdigest (joinedIds (Node.finalizedIds n.storage.allEvents)) := by
  unfold Node.consensusSnapshot
  dsimp only
  split
  · rename_i hempty
    rw [List.isEmpty_iff.1 hempty]
    rfl
  · rfl

/-- The member ids of a snapshot, in its order. -/
def memberIdsOf (members : List MembershipEntry) : List String := (sortedEntries members).map MembershipEntry.nodeId

end Agreement

/-- **What the monitor compares.** Barring a collision, and with ids of events
and members that are not empty and hold no colon, two snapshots agree if and
only if the nodes have finalized the same events in the same order and have the
same members; if and only if that holds no reason is reported. -/
theorem snapshots_agree_iff (n n' : Node) (epoch epoch' : Int) (members members' : List MembershipEntry)
    (now now' : Flt) (hids : PlainIds (Node.finalizedIds n.storage.allEvents))
    (hids' : PlainIds (Node.finalizedIds n'.storage.allEvents)) (hmembers : PlainIds (memberIdsOf members))
    (hmembers' : PlainIds (memberIdsOf members'))
    (hfree : ¬ Collides (joinedIds (Node.finalizedIds n'.storage.allEvents))
      (joinedIds (Node.finalizedIds n.storage.allEvents)))
    (hfree' : ¬ Collides (joinedIds (memberIdsOf members')) (joinedIds (memberIdsOf members))) :
    let own := n.consensusSnapshot (epochSnapshot epoch members) now
    let peer := n'.consensusSnapshot (epochSnapshot epoch' members') now'
    (own.agrees peer = true ↔ Node.finalizedIds n.storage.allEvents = Node.finalizedIds n'.storage.allEvents ∧
      memberIdsOf members = memberIdsOf members') ∧
    (own.mismatchReasons peer = [] ↔ own.agrees peer = true) := by
  refine ⟨?_, ConsensusDigest.mismatchReasons_eq_nil⟩
  have hhash := hexdigest_joinedIds hids' hids hfree
  have hsnapshot := hexdigest_joinedIds hmembers' hmembers hfree'
  rw [ConsensusDigest.agrees_iff, consensusSnapshot_hash, consensusSnapshot_hash, hhash]
  change _ ∧ _ ∧ Sha256.hexdigest (joinedIds (memberIdsOf members')) =
    Sha256.hexdigest (joinedIds (memberIdsOf members)) ↔ _
  rw [hsnapshot]
  constructor
  · intro h
    exact ⟨h.1.symm, h.2.2.symm⟩
  · intro h
    exact ⟨h.1.symm, congrArg List.length h.1.symm, h.2.symm⟩

/-- Two finalized events below a round that is not. -/
def finalizing (tail : Event) : DAGStorage :=
  { events := [⟨{ Event.linked "e2" "b" ["e1"] with roundReceived := some 1 }, .fin 2⟩,
      ⟨{ Event.linked "e1" "a" [] with roundReceived := some 0 }, .fin 1⟩, ⟨tail, .fin 3⟩] }

/-- Two nodes with other tails, at different epochs, that list their two members
in different order. -/
theorem snapshots_agree_iff_pair :
    let n : Node := ⟨{ nodeId := "a" }, ⟨[], ""⟩, finalizing { Event.linked "e3" "a" ["e2"] with roundReceived := some 3 }, [], []⟩
    let n' : Node := ⟨{ nodeId := "b" }, ⟨[], ""⟩, finalizing { Event.linked "e4" "b" ["e2"] with roundReceived := some 3 }, [], []⟩
    let own := n.consensusSnapshot (epochSnapshot 1 [⟨"a", "", "node", true⟩, ⟨"b", "", "node", true⟩]) (.fin 0)
    let peer := n'.consensusSnapshot (epochSnapshot 2 [⟨"b", "", "node", true⟩, ⟨"a", "", "node", false⟩]) (.fin 1)
    Node.finalizedIds n.storage.allEvents = ["e1", "e2"] ∧ own.agrees peer = true ∧ own.mismatchReasons peer = [] := by
  intro n n' own peer
  have hids : Node.finalizedIds n.storage.allEvents = ["e1", "e2"] := by decide +kernel
  have hids' : Node.finalizedIds n'.storage.allEvents = ["e1", "e2"] := by decide +kernel
  have hmembers : memberIdsOf [⟨"a", "", "node", true⟩, ⟨"b", "", "node", true⟩] = ["a", "b"] := by decide +kernel
  have hmembers' : memberIdsOf [⟨"b", "", "node", true⟩, ⟨"a", "", "node", false⟩] = ["a", "b"] := by decide +kernel
  have hsame : ∀ {a b}, a = b → ¬ Collides a b := fun heq h => h.1 heq
  have h := snapshots_agree_iff n n' 1 2 [⟨"a", "", "node", true⟩, ⟨"b", "", "node", true⟩]
    [⟨"b", "", "node", true⟩, ⟨"a", "", "node", false⟩] (.fin 0) (.fin 1) (by rw [hids]; decide) (by rw [hids']; decide)
    (by rw [hmembers]; decide) (by rw [hmembers']; decide) (hsame (by rw [hids, hids'])) (hsame (by rw [hmembers, hmembers']))
  have hagree := h.1.2 ⟨hids.trans hids'.symm, hmembers.trans hmembers'.symm⟩
  exact ⟨hids, hagree, h.2.2 hagree⟩

/-! ## Failures in a row -/

/-- What subscribers are told of a comparison. The payload has these fields of
the two snapshots. -/
structure DigestView where
  hash : String
  eventCount : Nat
  latestEvent : Option String
  consensusEpoch : Int
  membershipSnapshotHash : String

structure ConsensusStatus where
  peer : String
  peerNode : Option String
  isMatch : Bool
  own : DigestView
  timestamp : Flt
  pending : Bool
  mismatchReasons : List String
  peerState : Option (DigestView × String)
  error : Option String

def ConsensusDigest.view (d : ConsensusDigest) : DigestView :=
  ⟨d.hash, d.eventCount, d.latestEvent, d.consensusEpoch, d.membershipSnapshotHash⟩

/-- One round of the loop for one peer: the address, both snapshots, and the
clock; `none` when the peer does not answer. -/
structure Comparison where
  address : String
  own : ConsensusDigest
  peer : Option ConsensusDigest
  now : Flt

namespace Comparison

/-- The key of a peer's counter.
mirrors mdrj/node.py:2318 -/
def key (c : Comparison) : String :=
  if c.address ≠ "" then c.address
  else match c.peer with
    | some peer => if peer.nodeId ≠ "" then peer.nodeId else "unknown"
    | none => "unknown"

/-- mirrors mdrj/node.py:2247-2278 -/
def error (c : Comparison) : Option String :=
  match c.peer with
  | some _ => none
  | none => some "unreachable"

def isMatch (c : Comparison) : Bool :=
  match c.peer with
  | some peer => c.own.agrees peer
  | none => false

def reasons (c : Comparison) : List String :=
  match c.peer with
  | some peer => c.own.mismatchReasons peer
  | none => ["unreachable"]

end Comparison

/-- mirrors mdrj/node.py:2308-2355 -/
def notifyConsensusStatus (mismatches : Dict String Nat) (c : Comparison) : Dict String Nat × ConsensusStatus :=
  let mismatch := c.error.isSome || !c.isMatch
  let count := (Dict.get mismatches c.key).getD 0
  let count := if mismatch then count + 1 else 0
  let pending := mismatch && count < 3
  (Dict.set mismatches c.key count,
    { peer := c.address
      peerNode := c.peer.map ConsensusDigest.nodeId
      isMatch := c.isMatch && c.error.isNone
      own := c.own.view
      timestamp := c.now
      pending := pending
      mismatchReasons := c.reasons
      peerState := c.peer.map fun peer => (peer.view, peer.nodeId)
      error := c.error })

inductive ConsensusHealth where
  | ok | pending | mismatch
  deriving DecidableEq, Repr

def sortedNames (names : List String) : List String := names.insertionSort (· ≤ ·)

/-- mirrors mdrj/node.py:2484-2491 -/
def consensusHealth (mismatches : Dict String Nat) : ConsensusHealth :=
  let mismatchPeers := sortedNames ((mismatches.filter fun p => 3 ≤ p.2).map Prod.fst)
  let pendingPeers := sortedNames ((mismatches.filter fun p => 0 < p.2 ∧ p.2 < 3).map Prod.fst)
  if mismatchPeers ≠ [] then .mismatch
  else if pendingPeers ≠ [] then .pending
  else .ok

/-- The state of the monitor, and what it has told its subscribers. -/
structure Monitor where
  mismatches : Dict String Nat := []
  told : List ConsensusStatus := []

def Monitor.step (m : Monitor) (c : Comparison) : Monitor :=
  let (mismatches, status) := notifyConsensusStatus m.mismatches c
  ⟨mismatches, m.told ++ [status]⟩

/-- No answer, or another prefix or membership. -/
def Comparison.failed (c : Comparison) : Bool := !c.isMatch

theorem Comparison.mismatch_eq (c : Comparison) : (c.error.isSome || !c.isMatch) = c.failed := by
  unfold error isMatch failed
  cases hpeer : c.peer with
  | none => simp [isMatch, hpeer]
  | some peer => simp [isMatch, hpeer]

theorem Monitor.step_mismatches (m : Monitor) (c : Comparison) : (m.step c).mismatches =
    Dict.set m.mismatches c.key (if c.failed then (Dict.get m.mismatches c.key).getD 0 + 1 else 0) := by
  rw [← c.mismatch_eq]
  rfl

/-- What was compared with the peer of this key. -/
def comparisonsOf (key : String) (comparisons : List Comparison) : List Comparison :=
  comparisons.filter fun c => c.key = key

theorem comparisonsOf_concat (key : String) (comparisons : List Comparison) (c : Comparison) :
    comparisonsOf key (comparisons ++ [c]) =
      if c.key = key then comparisonsOf key comparisons ++ [c] else comparisonsOf key comparisons := by
  unfold comparisonsOf
  rw [List.filter_append, List.filter_cons]
  by_cases h : c.key = key
  · simp [h]
  · simp [h]

/-- A counter is the length of the streak of failures at the end. -/
theorem count_eq_streak (comparisons : List Comparison) (key : String) :
    (Dict.get (run Monitor.step {} comparisons).mismatches key).getD 0 =
      streak Comparison.failed (comparisonsOf key comparisons) := by
  induction comparisons using List.reverseRecOn with
  | nil => rfl
  | append_singleton comparisons c ih =>
    rw [run_concat, comparisonsOf_concat, Monitor.step_mismatches, Dict.get_set]
    by_cases hkey : c.key = key
    · subst hkey
      rw [if_pos rfl, if_pos rfl, streak_concat, ← ih, Option.getD_some]
    · rw [if_neg hkey, if_neg hkey]
      exact ih

theorem keys_nodup (comparisons : List Comparison) :
    (Dict.keys (run Monitor.step {} comparisons).mismatches).Nodup := by
  induction comparisons using List.reverseRecOn with
  | nil => exact List.nodup_nil
  | append_singleton comparisons c ih =>
    rw [run_concat, Monitor.step_mismatches]
    exact Dict.nodup_set ih _ _

theorem sortedNames_ne_nil {names : List String} : sortedNames names ≠ [] ↔ ∃ name, name ∈ names := by
  have hmem : ∀ name, name ∈ sortedNames names ↔ name ∈ names := fun name => List.mem_insertionSort _
  constructor
  · intro h
    obtain ⟨name, hname⟩ := List.exists_mem_of_ne_nil _ h
    exact ⟨name, (hmem name).1 hname⟩
  · intro h
    obtain ⟨name, hname⟩ := h
    exact List.ne_nil_of_mem ((hmem name).2 hname)

theorem consensusHealth_cases (mismatches : Dict String Nat) :
    (∃ name, name ∈ (mismatches.filter fun p => 3 ≤ p.2).map Prod.fst) ∧
        consensusHealth mismatches = .mismatch ∨
      (¬ ∃ name, name ∈ (mismatches.filter fun p => 3 ≤ p.2).map Prod.fst) ∧
        (∃ name, name ∈ (mismatches.filter fun p => 0 < p.2 ∧ p.2 < 3).map Prod.fst) ∧
        consensusHealth mismatches = .pending ∨
      (¬ ∃ name, name ∈ (mismatches.filter fun p => 3 ≤ p.2).map Prod.fst) ∧
        (¬ ∃ name, name ∈ (mismatches.filter fun p => 0 < p.2 ∧ p.2 < 3).map Prod.fst) ∧
        consensusHealth mismatches = .ok := by
  simp only [← sortedNames_ne_nil]
  unfold consensusHealth
  dsimp only
  by_cases hthree : sortedNames ((mismatches.filter fun p => 3 ≤ p.2).map Prod.fst) ≠ []
  · exact .inl ⟨hthree, if_pos hthree⟩
  · rw [if_neg hthree]
    by_cases hsome : sortedNames ((mismatches.filter fun p => 0 < p.2 ∧ p.2 < 3).map Prod.fst) ≠ []
    · exact .inr (.inl ⟨hthree, hsome, if_pos hsome⟩)
    · exact .inr (.inr ⟨hthree, hsome, if_neg hsome⟩)

/-- Some counter satisfies a test that zero does not. -/
theorem exists_count {p : Nat → Bool} (hzero : p 0 = false) (comparisons : List Comparison) :
    (∃ name, name ∈ ((run Monitor.step {} comparisons).mismatches.filter fun q => p q.2).map Prod.fst) ↔
      ∃ key, p (streak Comparison.failed (comparisonsOf key comparisons)) = true := by
  have hnodup := keys_nodup comparisons
  constructor
  · intro h
    obtain ⟨name, hname⟩ := h
    obtain ⟨q, hq, rfl⟩ := List.mem_map.1 hname
    obtain ⟨hmem, hp⟩ := List.mem_filter.1 hq
    refine ⟨q.1, ?_⟩
    rw [← count_eq_streak, Dict.get_of_mem hnodup (k := q.1) (v := q.2) hmem, Option.getD_some]
    exact hp
  · intro h
    obtain ⟨key, hp⟩ := h
    rw [← count_eq_streak] at hp
    cases hget : Dict.get (run Monitor.step {} comparisons).mismatches key with
    | none =>
      rw [hget, Option.getD_none, hzero] at hp
      cases hp
    | some count =>
      rw [hget, Option.getD_some] at hp
      exact ⟨key, List.mem_map.2 ⟨(key, count), List.mem_filter.2 ⟨Dict.mem_of_get hget, hp⟩, rfl⟩⟩

/-- The last `k` comparisons with the peer failed. -/
def FailedLast (k : Nat) (key : String) (comparisons : List Comparison) : Prop :=
  ∃ before last, comparisonsOf key comparisons = before ++ last ∧ last.length = k ∧ ∀ c ∈ last, c.failed = true

theorem told_initial (comparisons : List Comparison) (m : Monitor) :
    m.told <+: (run Monitor.step m comparisons).told := by
  induction comparisons generalizing m with
  | nil => exact List.prefix_refl _
  | cons c comparisons ih => exact (List.prefix_append _ _).trans (ih (m.step c))

theorem told_length (comparisons : List Comparison) :
    (run Monitor.step {} comparisons).told.length = comparisons.length := by
  induction comparisons using List.reverseRecOn with
  | nil => rfl
  | append_singleton comparisons c ih =>
    rw [run_concat, List.length_append, ← ih]
    exact List.length_append

/-- Each comparison is told of once, in order. -/
theorem told_getElem? {before comparisons : List Comparison} {c : Comparison} (h : before ++ [c] <+: comparisons) :
    (run Monitor.step {} comparisons).told[before.length]? =
      some (notifyConsensusStatus (run Monitor.step {} before).mismatches c).2 := by
  obtain ⟨after, rfl⟩ := h
  have htold : (run Monitor.step {} (before ++ [c])).told = (run Monitor.step {} before).told ++
      [(notifyConsensusStatus (run Monitor.step {} before).mismatches c).2] := by
    rw [run_concat]
    rfl
  have hinitial := told_initial after (run Monitor.step {} (before ++ [c]))
  rw [← run_append, htold] at hinitial
  obtain ⟨later, hlater⟩ := hinitial
  rw [← hlater, List.append_assoc, List.getElem?_append_right (told_length before).le, told_length, Nat.sub_self]
  rfl

theorem isMatch_iff (c : Comparison) (mismatches : Dict String Nat) :
    (notifyConsensusStatus mismatches c).2.isMatch = true ↔ c.failed = false := by
  unfold notifyConsensusStatus Comparison.failed
  dsimp only
  cases hpeer : c.peer with
  | none => simp [Comparison.isMatch, hpeer]
  | some peer => simp [Comparison.error, hpeer]

theorem pending_iff (before : List Comparison) (c : Comparison) :
    (notifyConsensusStatus (run Monitor.step {} before).mismatches c).2.pending = true ↔
      c.failed = true ∧ ¬ FailedLast 3 c.key (before ++ [c]) := by
  have hstreak : FailedLast 3 c.key (before ++ [c]) ↔
      3 ≤ if c.failed then streak Comparison.failed (comparisonsOf c.key before) + 1 else 0 := by
    unfold FailedLast
    rw [← le_streak_iff, comparisonsOf_concat, if_pos rfl, streak_concat]
  unfold notifyConsensusStatus
  dsimp only
  rw [c.mismatch_eq, hstreak, count_eq_streak]
  cases c.failed with
  | false => simp
  | true =>
    simp only [Bool.true_and, if_true, decide_eq_true_iff, true_and]
    omega

/-- **The health is that of the last comparisons.** In every run of comparisons,
with any answers and any order of the peers: the health is a mismatch exactly
when the last three comparisons with some peer failed, pending exactly when
that is so of none and the last comparison with some peer failed, and ok when
the last comparison with every peer succeeded. Each comparison is told as
pending exactly when it failed and not as the third failure in a row or a
later one. -/
theorem consensus_health_exact (comparisons : List Comparison) :
    (consensusHealth (run Monitor.step {} comparisons).mismatches = .mismatch ↔ ∃ key, FailedLast 3 key comparisons) ∧
    (consensusHealth (run Monitor.step {} comparisons).mismatches = .pending ↔
      (∃ key, FailedLast 1 key comparisons) ∧ ¬ ∃ key, FailedLast 3 key comparisons) ∧
    (consensusHealth (run Monitor.step {} comparisons).mismatches = .ok ↔ ¬ ∃ key, FailedLast 1 key comparisons) ∧
    ∀ before c, before ++ [c] <+: comparisons →
      ∃ status, (notifyConsensusStatus (run Monitor.step {} before).mismatches c).2 = status ∧
        (run Monitor.step {} comparisons).told[before.length]? = some status ∧
        (status.isMatch = true ↔ c.failed = false) ∧
        (status.pending = true ↔ c.failed = true ∧ ¬ FailedLast 3 c.key (before ++ [c])) := by
  have hthree : (∃ name, name ∈ ((run Monitor.step {} comparisons).mismatches.filter fun q => 3 ≤ q.2).map Prod.fst) ↔
      ∃ key, FailedLast 3 key comparisons := by
    rw [exists_count (p := fun count => decide (3 ≤ count)) rfl]
    refine exists_congr fun key => ?_
    rw [decide_eq_true_iff]
    exact le_streak_iff
  have hpending : (∃ name, name ∈
      ((run Monitor.step {} comparisons).mismatches.filter fun q => decide (0 < q.2 ∧ q.2 < 3)).map Prod.fst) ↔
      ∃ key, FailedLast 1 key comparisons ∧ ¬ FailedLast 3 key comparisons := by
    rw [exists_count (p := fun count => decide (0 < count ∧ count < 3)) rfl]
    refine exists_congr fun key => ?_
    rw [decide_eq_true_iff, ← not_le (b := streak _ _)]
    exact and_congr le_streak_iff (not_congr le_streak_iff)
  -- three failures in a row end with a failure
  have hlast : ∀ key, FailedLast 3 key comparisons → FailedLast 1 key comparisons := by
    intro key h
    exact le_streak_iff.1 ((by omega : 1 ≤ 3).trans (le_streak_iff.2 h))
  have hcases := consensusHealth_cases (run Monitor.step {} comparisons).mismatches
  rw [hthree, hpending] at hcases
  refine ⟨?_, ?_, ?_, fun before c hpre => ⟨_, rfl, told_getElem? hpre, ?_, ?_⟩⟩
  · rcases hcases with ⟨h, hhealth⟩ | ⟨h, -, hhealth⟩ | ⟨h, -, hhealth⟩
    · exact ⟨fun _ => h, fun _ => hhealth⟩
    · rw [hhealth]
      exact ⟨fun heq => absurd heq (by decide), fun hmis => absurd hmis h⟩
    · rw [hhealth]
      exact ⟨fun heq => absurd heq (by decide), fun hmis => absurd hmis h⟩
  · rcases hcases with ⟨h, hhealth⟩ | ⟨h, ⟨key, hkey, -⟩, hhealth⟩ | ⟨h, hnone, hhealth⟩
    · rw [hhealth]
      exact ⟨fun heq => absurd heq (by decide), fun hpend => absurd h hpend.2⟩
    · exact ⟨fun _ => ⟨⟨key, hkey⟩, h⟩, fun _ => hhealth⟩
    · rw [hhealth]
      refine ⟨fun heq => absurd heq (by decide), fun hpend => ?_⟩
      obtain ⟨⟨key, hkey⟩, hno⟩ := hpend
      exact absurd ⟨key, hkey, fun hmis => hno ⟨key, hmis⟩⟩ hnone
  · rcases hcases with ⟨⟨key, hkey⟩, hhealth⟩ | ⟨h, ⟨key, hkey, -⟩, hhealth⟩ | ⟨h, hnone, hhealth⟩
    · rw [hhealth]
      exact ⟨fun heq => absurd heq (by decide), fun hok => absurd ⟨key, hlast key hkey⟩ hok⟩
    · rw [hhealth]
      exact ⟨fun heq => absurd heq (by decide), fun hok => absurd ⟨key, hkey⟩ hok⟩
    · refine ⟨fun _ hfail => ?_, fun _ => hhealth⟩
      obtain ⟨key, hkey⟩ := hfail
      exact hnone ⟨key, hkey, fun hmis => h ⟨key, hmis⟩⟩
  · exact isMatch_iff c _
  · exact pending_iff before c

end Mdrj.L4
