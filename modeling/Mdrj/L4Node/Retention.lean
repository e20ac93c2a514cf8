import Mdrj.Core.Sorting
import Mdrj.L4Node.Checkpoint

/-!
# Retention

A retention pass moves events covered by a confirmed checkpoint to
`event_skeletons`. `verify_checkpoint` does not know about that: it recomputes
the root from the events that are left, and a pass that deletes one of them
makes it report tampering (`retention_alarm_iff`).
-/
namespace Mdrj.L4
open Mdrj.Core Mdrj.L1 Mdrj.L2 Mdrj.L3

/-! ## The root depends on the set of events -/

section Root

theorem leafLe_total (a b : Event) : leafLe a b ∨ leafLe b a := by
  unfold leafLe
  rcases lt_trichotomy (a.roundReceived.getD (-1)) (b.roundReceived.getD (-1)) with h | h | h
  · exact .inl (.inl h)
  · rcases String.le_total a.id b.id with hle | hle
    · exact .inl (.inr ⟨h, hle⟩)
    · exact .inr (.inr ⟨h.symm, hle⟩)
  · exact .inr (.inl h)

theorem leafLe_trans {a b c : Event} (hab : leafLe a b) (hbc : leafLe b c) : leafLe a c := by
  unfold leafLe at *
  rcases hab with h | ⟨h, hle⟩ <;> rcases hbc with h' | ⟨h', hle'⟩
  · exact .inl (h.trans h')
  · exact .inl (h' ▸ h)
  · exact .inl (h ▸ h')
  · exact .inr ⟨h.trans h', String.le_trans hle hle'⟩

/-- Leaves that sort alike have one id. -/
theorem leafLe_antisymm {a b : Event} (hab : leafLe a b) (hba : leafLe b a) : a.id = b.id := by
  unfold leafLe at *
  rcases hab with h | ⟨h, hle⟩ <;> rcases hba with h' | ⟨h', hle'⟩
  · omega
  · omega
  · omega
  · exact String.le_antisymm hle hle'

theorem merkleText_perm {l l' : List Event} (h : l.Perm l') (hn : (l.map Event.id).Nodup) :
    merkleText l = merkleText l' := by
  have hsort : l.insertionSort leafLe = l'.insertionSort leafLe := by
    refine List.Perm.eq_of_pairwise ?_
      (pairwise_insertionSort_of (fun a _ b _ => leafLe_total a b)
        fun a _ b _ c _ => leafLe_trans)
      (pairwise_insertionSort_of (fun a _ b _ => leafLe_total a b)
        fun a _ b _ c _ => leafLe_trans)
      (((List.perm_insertionSort _ _).trans h).trans (List.perm_insertionSort _ _).symm)
    intro a b ha hb hab hba
    exact List.inj_on_of_nodup_map hn ((List.mem_insertionSort _).1 ha)
      (h.mem_iff.2 ((List.mem_insertionSort _).1 hb)) (leafLe_antisymm hab hba)
  unfold merkleText
  rw [hsort]

theorem join_length (ls : List String) (h : ∀ s ∈ ls, s.length = 64) :
    (String.join ls).length = 64 * ls.length := by
  induction ls with
  | nil => rfl
  | cons s ls ih =>
    rw [String.join_cons, String.length_append, h s List.mem_cons_self,
      ih fun s' hs' => h s' (List.mem_cons_of_mem _ hs'), List.length_cons]
    omega

/-- Every leaf adds 64 characters. -/
theorem merkleText_length (events : List Event) : (merkleText events).length = 64 * events.length := by
  unfold merkleText
  rw [join_length, List.length_map, List.length_insertionSort]
  intro s hs
  obtain ⟨e, -, rfl⟩ := List.mem_map.1 hs
  exact Sha256.hexdigest_length _

theorem computeMerkleRoot_ne_empty (events : List Event) : computeMerkleRoot events ≠ "" := by
  intro h
  have := Sha256.hexdigest_length (merkleText events)
  unfold computeMerkleRoot at h
  rw [h] at this
  cases this

end Root

/-! ## What a pass deletes -/

/-- The pass deletes this row. -/
def Node.prunes (n : Node) (now : Flt) (row : EventRow) : Bool :=
  match n.config.retention.enabled, n.storage.latestConfirmedCheckpoint,
    Node.maxAgeSec n.config.retention with
  | true, some (confirmedRound, _), some maxAge =>
    DAGStorage.prunable confirmedRound (now.sub maxAge) n.config.retention.keepClassA row
  | _, _, _ => false

/-- The row is among those up to round `r`. -/
def covered (r : Int) (row : EventRow) : Bool :=
  match row.event.roundReceived with
  | none => false
  | some rr => rr ≤ r

section Pass
variable {n : Node} {now : Flt} {r : Int}

theorem runRetentionOnce_events : (n.runRetentionOnce now).node.storage.events =
    n.storage.events.filter fun row => !n.prunes now row := by
  unfold Node.runRetentionOnce Node.prunes
  dsimp only
  cases n.config.retention.enabled with
  | false => exact (List.filter_true _).symm
  | true =>
    cases n.storage.latestConfirmedCheckpoint with
    | none => exact (List.filter_true _).symm
    | some p =>
      dsimp only
      cases Node.maxAgeSec n.config.retention with
      | none => exact (List.filter_true _).symm
      | some maxAge => rfl

theorem runRetentionOnce_ok (now : Flt) {maxAge : Flt} {confirmedRound : Int} {row : CheckpointRow}
    (henabled : n.config.retention.enabled = true)
    (hlatest : n.storage.latestConfirmedCheckpoint = some (confirmedRound, row))
    (hage : Node.maxAgeSec n.config.retention = some maxAge) :
    (n.runRetentionOnce now).node = { n with storage := (n.storage.pruneUnderCheckpoint
      confirmedRound maxAge n.config.retention.keepClassA now).1 } := by
  unfold Node.runRetentionOnce
  dsimp only
  rw [henabled, hlatest, hage]
  rfl

theorem prunable_eq (confirmedRound : Int) (threshold : Flt) (keepClassA : Bool) (row : EventRow) :
    DAGStorage.prunable confirmedRound threshold keepClassA row =
      (covered confirmedRound row && (Flt.lt row.createdAt threshold &&
        !(keepClassA && row.event.cls == .A))) := by
  unfold DAGStorage.prunable covered
  cases row.event.roundReceived with
  | none => rfl
  | some rr => exact Bool.and_assoc _ _ _

theorem covered_mono {c : Int} (hle : r ≤ c) {row : EventRow} (h : covered r row = true) :
    covered c row = true := by
  unfold covered at *
  cases hrr : row.event.roundReceived with
  | none => rw [hrr] at h; cases h
  | some rr =>
    rw [hrr] at h
    have hle' : rr ≤ r := of_decide_eq_true h
    exact decide_eq_true (hle'.trans hle)

/-- The newest confirmed round is at least any confirmed round. -/
theorem latestConfirmedCheckpoint_ge {s : DAGStorage} {row : CheckpointRow}
    (hget : Dict.get s.checkpoints r = some row) (hst : row.status = .confirmed) :
    ∃ c row', s.latestConfirmedCheckpoint = some (c, row') ∧ r ≤ c := by
  have hmem : (r, row) ∈ (s.checkpoints.filter fun p => p.2.status = .confirmed).insertionSort
      fun a b => b.1 ≤ a.1 := by
    rw [List.mem_insertionSort, List.mem_filter]
    exact ⟨Dict.mem_of_get hget, decide_eq_true hst⟩
  have hsorted : ((s.checkpoints.filter fun p => p.2.status = .confirmed).insertionSort
      fun a b => b.1 ≤ a.1).Pairwise fun a b => b.1 ≤ a.1 :=
    pairwise_insertionSort_of (fun a _ b _ => Int.le_total b.1 a.1)
      fun a _ b _ c _ hab hbc => Int.le_trans hbc hab
  unfold DAGStorage.latestConfirmedCheckpoint
  cases hl : (s.checkpoints.filter fun p => p.2.status = .confirmed).insertionSort
      fun a b => b.1 ≤ a.1 with
  | nil => rw [hl] at hmem; cases hmem
  | cons p rest =>
    rw [hl] at hmem hsorted
    refine ⟨p.1, p.2, rfl, ?_⟩
    rcases List.mem_cons.1 hmem with rfl | hmem
    · exact Int.le_refl _
    · exact (List.pairwise_cons.1 hsorted).1 _ hmem

/-- Of the rows up to `r` the pass deletes none: it is off, or none of them
is older than the age limit and may be deleted. -/
def Spares (n : Node) (now : Flt) (r : Int) : Prop :=
  n.config.retention.enabled = false ∨
    ∀ maxAge, Node.maxAgeSec n.config.retention = some maxAge → ∀ row ∈ n.storage.events,
      DAGStorage.prunable r (now.sub maxAge) n.config.retention.keepClassA row = false

theorem spares_iff {row : CheckpointRow} (hget : Dict.get n.storage.checkpoints r = some row)
    (hst : row.status = .confirmed) : Spares n now r ↔
      ∀ row ∈ n.storage.events, covered r row = true → n.prunes now row = false := by
  obtain ⟨c, row', hlatest, hle⟩ := latestConfirmedCheckpoint_ge hget hst
  unfold Spares Node.prunes
  rw [hlatest]
  cases n.config.retention.enabled with
  | false => exact ⟨fun _ _ _ _ => rfl, fun _ => .inl rfl⟩
  | true =>
    cases Node.maxAgeSec n.config.retention with
    | none => exact ⟨fun _ _ _ _ => rfl, fun _ => .inr fun _ h => by cases h⟩
    | some maxAge =>
      have key : ∀ row, DAGStorage.prunable r (now.sub maxAge) n.config.retention.keepClassA row =
          false ↔ (covered r row = true →
            DAGStorage.prunable c (now.sub maxAge) n.config.retention.keepClassA row = false) := by
        intro row
        rw [prunable_eq, prunable_eq]
        cases hcov : covered r row with
        | false => simp
        | true => rw [covered_mono hle hcov]; simp
      constructor
      · rintro (h | h) row hrow
        · cases h
        · exact (key row).1 (h maxAge rfl row hrow)
      · refine fun h => .inr fun a ha row hrow => ?_
        obtain rfl := Option.some.inj ha
        exact (key row).2 (h row hrow)

theorem eventsUpToRoundReceived_perm (n : Node) (r : Int) : (n.eventsUpToRoundReceived r).Perm
    ((n.storage.events.filter (covered r)).map DAGStorage.loadEvent) := by
  unfold Node.eventsUpToRoundReceived DAGStorage.allEvents
  rw [List.filter_map]
  exact ((List.perm_insertionSort _ _).filter _).map _

theorem pruneUnderCheckpoint_idle {s : DAGStorage} {confirmedRound : Int} {maxAge : Flt}
    {keepClassA : Bool}
    (h : ∀ row ∈ s.events,
      DAGStorage.prunable confirmedRound (now.sub maxAge) keepClassA row = false) :
    (s.pruneUnderCheckpoint confirmedRound maxAge keepClassA now).1 = s := by
  have hnone : s.events.filter (DAGStorage.prunable confirmedRound (now.sub maxAge) keepClassA) = [] :=
    List.filter_eq_nil_iff.2 fun row hrow => by rw [h row hrow]; decide
  have hall : s.events.filter (fun row =>
      !DAGStorage.prunable confirmedRound (now.sub maxAge) keepClassA row) = s.events :=
    List.filter_eq_self.2 fun row hrow => by rw [h row hrow]; rfl
  unfold DAGStorage.pruneUnderCheckpoint
  dsimp only
  rw [hnone, hall]
  simp

/-- A pass that deletes nothing changes nothing. -/
theorem runRetentionOnce_idle (h : ∀ row ∈ n.storage.events, n.prunes now row = false) :
    (n.runRetentionOnce now).node = n := by
  unfold Node.prunes at h
  cases henabled : n.config.retention.enabled with
  | false => unfold Node.runRetentionOnce; simp [henabled]
  | true =>
    cases hlatest : n.storage.latestConfirmedCheckpoint with
    | none => unfold Node.runRetentionOnce; simp [hlatest]
    | some p =>
      cases hage : Node.maxAgeSec n.config.retention with
      | none => unfold Node.runRetentionOnce; simp [henabled, hlatest, hage]
      | some maxAge =>
        rw [henabled, hlatest, hage] at h
        rw [runRetentionOnce_ok now henabled hlatest hage, pruneUnderCheckpoint_idle h]

/-- A pass keeps the text of the root exactly if it deletes no covered row. -/
theorem merkleText_retention (hn : n.storage.ids.Nodup) :
    merkleText ((n.runRetentionOnce now).node.eventsUpToRoundReceived r) =
        merkleText (n.eventsUpToRoundReceived r) ↔
      ∀ row ∈ n.storage.events, covered r row = true → n.prunes now row = false := by
  have hbefore := eventsUpToRoundReceived_perm n r
  have hafter := eventsUpToRoundReceived_perm (n.runRetentionOnce now).node r
  rw [runRetentionOnce_events, List.filter_filter] at hafter
  constructor
  · intro htext row hrow hcov
    -- one covered row less is one leaf less
    have hlen := congrArg String.length htext
    rw [merkleText_length, merkleText_length, hafter.length_eq, hbefore.length_eq, List.length_map,
      List.length_map] at hlen
    have hlen : (((n.storage.events.filter (covered r)).filter fun row => !n.prunes now row)).length =
        (n.storage.events.filter (covered r)).length := by
      rw [List.filter_filter]
      simp only [Bool.and_comm (covered r _)] at hlen
      omega
    have hall := List.filter_eq_self.1 (List.filter_sublist.eq_of_length hlen)
    simpa using hall row (List.mem_filter.2 ⟨hrow, hcov⟩)
  · intro hkeep
    have hfilter : n.storage.events.filter (fun row => covered r row && !n.prunes now row) =
        n.storage.events.filter (covered r) := by
      refine List.filter_congr fun row hrow => ?_
      cases hcov : covered r row with
      | false => rfl
      | true => rw [hkeep row hrow hcov]; rfl
    rw [hfilter] at hafter
    refine merkleText_perm (hafter.trans hbefore.symm) ?_
    rw [(hafter.map Event.id).nodup_iff, List.map_map]
    exact hn.sublist ((List.filter_sublist).map _)

end Pass

/-! ## Verification after a pass -/

section Verify
variable {n : Node} {now : Flt} {r : Int} {row : CheckpointRow}

/-- What a report says of a confirmed checkpoint. -/
theorem verifyCheckpoint_iff (hfit : fitsInt64 r = true)
    (hget : Dict.get n.storage.checkpoints r = some row) (hst : row.status = .confirmed) :
    ∃ report, n.verifyCheckpoint r = .ok report ∧
      (report.matchesMerkle = true ↔ n.eventsUpToRoundReceived r ≠ [] ∧
        computeMerkleRoot (n.eventsUpToRoundReceived r) = row.merkleRoot) ∧
      report.hasTamperEvidence = !report.matchesMerkle := by
  unfold Node.verifyCheckpoint DAGStorage.getCheckpoint
  rw [if_pos hfit, hget]
  refine ⟨_, rfl, ?_, ?_⟩
  · dsimp only
    rw [decide_eq_true_eq]
    cases hev : n.eventsUpToRoundReceived r with
    | nil => simp
    | cons e events => simp [computeMerkleRoot_ne_empty]
  · dsimp only
    rw [decide_eq_true hst, Bool.and_true]

theorem fits_of_verify {report : Node.CheckpointVerificationReport}
    (hv : n.verifyCheckpoint r = .ok report) : fitsInt64 r = true := by
  by_contra hfit
  unfold Node.verifyCheckpoint DAGStorage.getCheckpoint at hv
  rw [if_neg hfit] at hv
  cases hv

/-- Two texts with one digest. -/
def Collides (a b : String) : Prop := a ≠ b ∧ Sha256.hexdigest a = Sha256.hexdigest b

/-- **Retention and tamper evidence.** A confirmed checkpoint that verifies
before a pass verifies after it exactly if the pass deletes no covered event
(or SHA-256 collides on what is left of the leaves). -/
theorem retention_alarm_iff (hn : n.storage.ids.Nodup)
    (hget : Dict.get n.storage.checkpoints r = some row) (hst : row.status = .confirmed)
    {report : Node.CheckpointVerificationReport} (hv : n.verifyCheckpoint r = .ok report)
    (hm : report.matchesMerkle = true) (now : Flt) :
    (∃ report', (n.runRetentionOnce now).node.verifyCheckpoint r = .ok report' ∧
      report'.hasTamperEvidence = false) ↔
    Spares n now r ∨ (n.runRetentionOnce now).node.eventsUpToRoundReceived r ≠ [] ∧
      Collides (merkleText ((n.runRetentionOnce now).node.eventsUpToRoundReceived r))
        (merkleText (n.eventsUpToRoundReceived r)) := by
  have hfit := fits_of_verify hv
  obtain ⟨report₀, hv₀, hm₀, -⟩ := verifyCheckpoint_iff hfit hget hst
  obtain rfl := Except.ok.inj (hv.symm.trans hv₀)
  obtain ⟨hne, hroot⟩ := hm₀.1 hm
  have hget' : Dict.get (n.runRetentionOnce now).node.storage.checkpoints r = some row := by
    rw [(Node.runRetentionOnce_same n now).checkpoints]; exact hget
  obtain ⟨report', hv', hm', ht'⟩ := verifyCheckpoint_iff hfit hget' hst
  have hleft : (∃ report', (n.runRetentionOnce now).node.verifyCheckpoint r = .ok report' ∧
      report'.hasTamperEvidence = false) ↔ report'.matchesMerkle = true := by
    constructor
    · rintro ⟨report'', hv'', ht''⟩
      obtain rfl := Except.ok.inj (hv'.symm.trans hv'')
      simpa [ht''] using ht'
    · intro h
      exact ⟨report', hv', by rw [ht', h]; rfl⟩
  rw [hleft, hm', ← hroot, spares_iff hget hst, ← merkleText_retention hn]
  constructor
  · rintro ⟨hne', hroot'⟩
    by_cases htext : merkleText ((n.runRetentionOnce now).node.eventsUpToRoundReceived r) =
        merkleText (n.eventsUpToRoundReceived r)
    · exact .inl htext
    · exact .inr ⟨hne', htext, hroot'⟩
  · rintro (htext | ⟨hne', -, hroot'⟩)
    · refine ⟨fun hnil => hne ?_, ?_⟩
      · -- the same text has as many leaves
        have hlen := congrArg String.length htext
        rw [merkleText_length, merkleText_length, hnil] at hlen
        exact List.eq_nil_of_length_eq_zero (by simpa using hlen.symm)
      · unfold computeMerkleRoot; rw [htext]
    · exact ⟨hne', hroot'⟩

/-- One event that a confirmed checkpoint covers. -/
def anchored : Node where
  config := { nodeId := "a", hmacKey := "k", retention := { enabled := true, maxAgeDays := 0 } }
  membership := ⟨[⟨"a", "", "node", true⟩], "h"⟩
  storage := {
    events := [⟨{ Event.linked "a0" "a" [] with roundReceived := some 0 }, .fin 0⟩]
    checkpoints := [(0, {
      merkleRoot := computeMerkleRoot [{ Event.linked "a0" "a" [] with roundReceived := some 0 }]
      membersSnapshotHash := "h"
      signatures := [("a", "")]
      status := .confirmed
      confirmedAt := some (.fin 0)
      createdAt := .fin 0 })] }

theorem anchored_matches : ∃ report, anchored.verifyCheckpoint 0 = .ok report ∧
    report.matchesMerkle = true := by
  obtain ⟨report, hv, hm, -⟩ := verifyCheckpoint_iff (n := anchored) (r := 0) rfl rfl rfl
  have hev : anchored.eventsUpToRoundReceived 0 =
      [{ Event.linked "a0" "a" [] with roundReceived := some 0 }] := rfl
  refine ⟨report, hv, hm.2 ?_⟩
  rw [hev]
  exact ⟨List.cons_ne_nil _ _, rfl⟩

theorem retention_alarm_young : ∃ report',
    (anchored.runRetentionOnce (.fin 0)).node.verifyCheckpoint 0 = .ok report' ∧
      report'.hasTamperEvidence = false := by
  obtain ⟨report, hv, hm⟩ := anchored_matches
  refine (retention_alarm_iff (by decide) rfl rfl hv hm (.fin 0)).2 (.inl (.inr ?_))
  intro maxAge ha row hrow
  obtain rfl := List.mem_singleton.1 hrow
  have hage : Node.maxAgeSec anchored.config.retention = some (.fin 0) := by decide +kernel
  obtain rfl := Option.some.inj (hage.symm.trans ha)
  decide +kernel

/-- The pass deletes the covered event, and verification reports tampering. -/
theorem retention_raises_alarm : ∃ (n : Node) (now : Flt) (r : Int) (row : CheckpointRow),
    n.storage.ids.Nodup ∧ Dict.get n.storage.checkpoints r = some row ∧ row.status = .confirmed ∧
      (∃ report, n.verifyCheckpoint r = .ok report ∧ report.matchesMerkle = true) ∧
      ∃ report', (n.runRetentionOnce now).node.verifyCheckpoint r = .ok report' ∧
        report'.hasTamperEvidence = true := by
  refine ⟨anchored, .fin 1, 0, _, by decide, rfl, rfl, anchored_matches, ?_⟩
  obtain ⟨report', hv, hm, ht⟩ := verifyCheckpoint_iff
    (n := (anchored.runRetentionOnce (.fin 1)).node) (r := 0) rfl rfl rfl
  have hev : (anchored.runRetentionOnce (.fin 1)).node.eventsUpToRoundReceived 0 = [] :=
    List.isEmpty_iff.1 (by decide +kernel)
  refine ⟨report', hv, ?_⟩
  rw [ht]
  cases hmm : report'.matchesMerkle with
  | false => rfl
  | true => exact absurd hev (hm.1 hmm).1

end Verify

/-! ## A store with two events -/

/-- The two events of a single member, with their columns. -/
def first : Event :=
  { Event.linked "a0" "a" [] with
    round := some 0, roundReceived := some 0, isWitness := true, isFamousWitness := true,
    fameDecided := true, fameDecisionRound := some 1,
    fameDecisionKind := FameDecisionKind.vote.value, fameVoteRound := some 1, fameVoteYes := 1 }

def second : Event :=
  { Event.linked "a1" "a" ["a0"] with round := some 1, roundReceived := some 1, isWitness := true }

/-- Both stored at one time, under a confirmed checkpoint for round zero. -/
def pair (cfg : RetentionConfig) (createdAt : Flt) : Node where
  config := { nodeId := "a", retention := cfg }
  membership := ⟨[⟨"a", "", "node", true⟩], "h"⟩
  storage := {
    events := [⟨first, createdAt⟩, ⟨second, createdAt⟩]
    envelopes := [("a0", []), ("a1", [])]
    edges := [("a0", "a1")]
    checkpoints := [(0, ⟨computeMerkleRoot [first], "h", [("a", "")], .confirmed, none, createdAt⟩)] }

end Mdrj.L4
