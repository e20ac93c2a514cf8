import Mdrj.Core.Sorting
import Mdrj.L2Consensus.Listing

/-!
# The fame record of a vote history

The resolver walks through the rounds of a history in order, notes the votes
of each, and stops at the first round in which one side has enough of them.
Without such a round it throws the coin, if there are two rounds.

* `resolveVotes_eq`, `resolveFameFromVoteHistory_eq`: the record in one
  expression.
* `resolve_earliest`: the earliest decisive round decides, and what comes
  later changes nothing.
-/
namespace Mdrj.L2
open Mdrj.Core Mdrj.L1

/-- The votes `b` that the history holds for round `k`. -/
def voteCount (history : Dict Nat Votes) (k : Nat) (b : Bool) : Nat :=
  (Dict.values ((Dict.get history k).getD [])).count (some b)

/-- One side has enough votes in round `k`. -/
def carried (history : Dict Nat Votes) (threshold k : Nat) : Bool :=
  threshold ≤ voteCount history k true || threshold ≤ voteCount history k false

/-- The record after the votes of round `k` are noted. -/
def FameDecision.noted (decision : FameDecision) (history : Dict Nat Votes) (k : Nat) : FameDecision :=
  { decision with voteRound := some k, voteYes := voteCount history k true, voteNo := voteCount history k false }

/-- Decided by the votes of round `k`. -/
def votedRecord (history : Dict Nat Votes) (threshold k : Nat) : FameDecision :=
  { FameDecision.noted {} history k with
    famous := decide (threshold ≤ voteCount history k true)
    decided := true
    decisionRound := some k
    decisionKind := .vote }

/-- Decided by the coin of round `k`. -/
def coinRecord (witnessId : String) (history : Dict Nat Votes) (k : Nat) : FameDecision :=
  { FameDecision.noted {} history k with
    famous := deterministicCoinChoice witnessId k
    decided := true
    decisionRound := some k
    decisionKind := .coinSurrogate
    coinUsed := true
    coinRound := some k }

/-- Not decided: the votes of the only round, if there is one. -/
def pendingRecord (history : Dict Nat Votes) : FameDecision :=
  match Dict.keys history with
  | [] => {}
  | k :: _ => FameDecision.noted {} history k

/-- A round of the history in which one side has enough votes. -/
def Decisive (history : Dict Nat Votes) (threshold k : Nat) : Prop :=
  k ∈ Dict.keys history ∧ ∃ b, threshold ≤ voteCount history k b

section Resolve
variable {history history' : Dict Nat Votes} {threshold : Nat}

theorem decisive_iff {k : Nat} :
    Decisive history threshold k ↔ k ∈ Dict.keys history ∧ carried history threshold k = true := by
  unfold Decisive carried
  rw [Bool.or_eq_true, decide_eq_true_eq, decide_eq_true_eq, Bool.exists_bool, or_comm]

/-- One round of the walk. -/
theorem resolveVotes_cons (k : Nat) (ks : List Nat) (d : FameDecision) :
    resolveVotes history threshold d (k :: ks) =
      if carried history threshold k then (votedRecord history threshold k, true)
      else resolveVotes history threshold (d.noted history k) ks := by
  have hstep : resolveVotes history threshold d (k :: ks) =
      if threshold ≤ voteCount history k true then (votedRecord history threshold k, true)
      else if threshold ≤ voteCount history k false then (votedRecord history threshold k, true)
      else resolveVotes history threshold (d.noted history k) ks := by
    rw [resolveVotes]
    unfold votedRecord
    by_cases hyes : threshold ≤ voteCount history k true
    · rw [if_pos hyes, decide_eq_true hyes]
      exact if_pos hyes
    · rw [if_neg hyes, decide_eq_false hyes]
      exact if_neg hyes
  rw [hstep]
  unfold carried
  by_cases hyes : threshold ≤ voteCount history k true
  · simp [hyes]
  · simp [hyes]

/-- **The walk.** It stops at the first round that is carried, or notes the
last one. -/
theorem resolveVotes_eq (ks : List Nat) (d : FameDecision) :
    resolveVotes history threshold d ks =
      match ks.find? (carried history threshold) with
      | some k => (votedRecord history threshold k, true)
      | none => ((ks.getLast?.map (d.noted history)).getD d, false) := by
  induction ks generalizing d with
  | nil => rfl
  | cons k ks ih =>
    rw [resolveVotes_cons, List.find?_cons]
    cases hcarried : carried history threshold k with
    | true => rfl
    | false =>
      rw [if_neg Bool.false_ne_true, ih, List.getLast?_cons]
      cases ks.find? (carried history threshold) with
      | some k' => rfl
      | none =>
        -- what was noted before is overwritten
        cases ks.getLast? with
        | none => rfl
        | some k' => rfl

/-- A walk that stops found a round whose votes carry the record's value. -/
theorem resolveVotes_true (ks : List Nat) (d d' : FameDecision)
    (h : resolveVotes history threshold d ks = (d', true)) :
    d'.decided = true ∧ d'.decisionKind = .vote ∧
      ∃ k ∈ ks, d'.decisionRound = some k ∧ threshold ≤ voteCount history k d'.famous := by
  rw [resolveVotes_eq] at h
  split at h
  · next k hfind =>
    obtain ⟨rfl, -⟩ := Prod.mk.inj h
    refine ⟨rfl, rfl, k, List.mem_of_find?_eq_some hfind, rfl, ?_⟩
    have hcarried := List.find?_some hfind
    unfold carried at hcarried
    rw [Bool.or_eq_true, decide_eq_true_eq, decide_eq_true_eq] at hcarried
    unfold votedRecord
    by_cases hyes : threshold ≤ voteCount history k true
    · rw [decide_eq_true hyes]
      exact hyes
    · rw [decide_eq_false hyes]
      exact hcarried.resolve_left hyes
  · cases (Prod.mk.inj h).2

/-- A walk to the end found no such round and leaves the verdict as it was. -/
theorem resolveVotes_false (ks : List Nat) (d d' : FameDecision)
    (h : resolveVotes history threshold d ks = (d', false)) :
    d'.decided = d.decided ∧ d'.decisionKind = d.decisionKind ∧ d'.famous = d.famous ∧
      ∀ k ∈ ks, ∀ b, voteCount history k b < threshold := by
  rw [resolveVotes_eq] at h
  split at h
  · cases (Prod.mk.inj h).2
  · next hfind =>
    have hall : ∀ k ∈ ks, ∀ b, voteCount history k b < threshold := by
      intro k hk b
      have hnot := List.find?_eq_none.1 hfind k hk
      unfold carried at hnot
      rw [Bool.or_eq_true, decide_eq_true_eq, decide_eq_true_eq, not_or] at hnot
      cases b with
      | true => exact Nat.lt_of_not_le hnot.1
      | false => exact Nat.lt_of_not_le hnot.2
    obtain ⟨rfl, -⟩ := Prod.mk.inj h
    cases ks.getLast? with
    | none => exact ⟨rfl, rfl, rfl, hall⟩
    | some k => exact ⟨rfl, rfl, rfl, hall⟩

theorem sortedNats_pairwise (ks : List Nat) : (sortedNats ks).Pairwise (· ≤ ·) :=
  List.pairwise_insertionSort (· ≤ ·) ks

theorem mem_sortedNats {ks : List Nat} {k : Nat} : k ∈ sortedNats ks ↔ k ∈ ks := (sortedNats_perm ks).mem_iff

/-- The first round that is carried is the earliest decisive one. -/
theorem find?_carried {k : Nat} :
    (sortedNats (Dict.keys history)).find? (carried history threshold) = some k ↔
      IsLeast {k | Decisive history threshold k} k := by
  rw [find?_isLeast (sortedNats_pairwise _)]
  simp only [mem_sortedNats, decisive_iff]

/-- A decisive round that has none before it decides. -/
theorem resolve_voted (witnessId : String) {k : Nat} (h : IsLeast {k | Decisive history threshold k} k) :
    resolveFameFromVoteHistory witnessId history threshold = votedRecord history threshold k := by
  unfold resolveFameFromVoteHistory
  rw [resolveVotes_eq, find?_carried.2 h]

/-- Without a decisive round the walk notes the largest one. -/
theorem resolveVotes_open (h : ∀ k, ¬ Decisive history threshold k) :
    resolveVotes history threshold {} (sortedNats (Dict.keys history)) =
      (((sortedNats (Dict.keys history)).getLast?.map (FameDecision.noted {} history)).getD {}, false) := by
  have hnone : (sortedNats (Dict.keys history)).find? (carried history threshold) = none := by
    rw [List.find?_eq_none]
    intro k hk hcarried
    exact h k (decisive_iff.2 ⟨mem_sortedNats.1 hk, hcarried⟩)
  rw [resolveVotes_eq, hnone]

/-- Histories that agree up to the earliest decisive round have the same
earliest decisive round. -/
theorem decisive_congr {k : Nat} (h : IsLeast {k | Decisive history threshold k} k)
    (hsame : ∀ j ≤ k, Dict.get history' j = Dict.get history j) :
    IsLeast {k | Decisive history' threshold k} k := by
  have hiff : ∀ j ≤ k, (Decisive history' threshold j ↔ Decisive history threshold j) := by
    intro j hj
    unfold Decisive voteCount
    rw [Dict.mem_keys, Dict.mem_keys, hsame j hj]
  refine ⟨(hiff k le_rfl).2 h.1, fun j hj => ?_⟩
  by_contra hlt
  have hle : j ≤ k := by omega
  exact hlt (h.2 ((hiff j hle).1 hj))

theorem maxRound_eq {k : Nat} (h : IsGreatest {k | k ∈ Dict.keys history} k) :
    (Dict.keys history).foldl max 0 = k := by
  refine Nat.le_antisymm ((foldl_max_le _ _ _).2 ⟨Nat.zero_le _, fun j hj => h.2 hj⟩) ?_
  exact ((foldl_max_le _ _ _).1 le_rfl).2 k h.1

theorem resolve_coin (witnessId : String) (h : ∀ k, ¬ Decisive history threshold k) (hlong : 2 ≤ history.length) :
    ∃ k, IsGreatest {k | k ∈ Dict.keys history} k ∧
      resolveFameFromVoteHistory witnessId history threshold = coinRecord witnessId history k := by
  have hlast : ∃ k, (sortedNats (Dict.keys history)).getLast? = some k := by
    refine Option.ne_none_iff_exists'.1 fun hnone => ?_
    have hempty := (sortedNats_perm (Dict.keys history)).length_eq
    rw [List.getLast?_eq_none_iff.1 hnone, Dict.keys, List.length_map, List.length_nil] at hempty
    omega
  obtain ⟨k, hk⟩ := hlast
  have hgreatest : IsGreatest {k | k ∈ Dict.keys history} k := by
    have hsorted := getLast?_isGreatest (sortedNats_pairwise (Dict.keys history)) hk
    simpa only [mem_sortedNats] using hsorted
  refine ⟨k, hgreatest, ?_⟩
  unfold resolveFameFromVoteHistory
  rw [resolveVotes_open h, hk, maxRound_eq hgreatest]
  exact if_pos hlong

theorem resolve_pending (witnessId : String) (h : ∀ k, ¬ Decisive history threshold k)
    (hshort : history.length < 2) :
    resolveFameFromVoteHistory witnessId history threshold = pendingRecord history := by
  unfold resolveFameFromVoteHistory
  rw [resolveVotes_open h]
  dsimp only
  rw [if_neg (by omega)]
  match history, hshort with
  | [], _ => rfl
  | [p], _ => rfl

end Resolve

/-- **The earliest decisive round.** If a round is decisive, the earliest such
round decides, and every history that agrees with this one up to that round
has the same record. Otherwise the coin of the largest round decides if there
are two rounds, and nothing if there are fewer. -/
theorem resolve_earliest (witnessId : String) (history : Dict Nat Votes) (threshold : Nat) :
    ((∃ k, Decisive history threshold k) → ∃ k, IsLeast {k | Decisive history threshold k} k ∧
      resolveFameFromVoteHistory witnessId history threshold = votedRecord history threshold k ∧
      ∀ history' : Dict Nat Votes, (∀ j ≤ k, Dict.get history' j = Dict.get history j) →
        resolveFameFromVoteHistory witnessId history' threshold =
          resolveFameFromVoteHistory witnessId history threshold) ∧
    ((∀ k, ¬ Decisive history threshold k) →
      (2 ≤ history.length → ∃ k, IsGreatest {k | k ∈ Dict.keys history} k ∧
        resolveFameFromVoteHistory witnessId history threshold = coinRecord witnessId history k) ∧
      (history.length < 2 →
        resolveFameFromVoteHistory witnessId history threshold = pendingRecord history)) := by
  classical
  refine ⟨fun h => ?_, fun h => ⟨resolve_coin witnessId h, resolve_pending witnessId h⟩⟩
  have hleast : IsLeast {k | Decisive history threshold k} (Nat.find h) :=
    ⟨Nat.find_spec h, fun k hk => Nat.find_min' h hk⟩
  refine ⟨Nat.find h, hleast, resolve_voted witnessId hleast, fun history' hsame => ?_⟩
  have hvotes : votedRecord history' threshold (Nat.find h) = votedRecord history threshold (Nat.find h) := by
    unfold votedRecord FameDecision.noted voteCount
    rw [hsame _ le_rfl]
  rw [resolve_voted witnessId hleast, resolve_voted witnessId (decisive_congr hleast hsame), hvotes]

/-! ## Three rounds -/

def openRound : Nat × Votes := (1, [("a", some true), ("b", none)])

def yesRound : Nat × Votes := (2, [("a", some true), ("b", some true)])

def noRound : Nat × Votes := (3, [("a", some false), ("b", some false)])

/-- The second round decides, whether the third is there or not; without both
the record is open, and two open rounds leave it to the coin. -/
theorem resolve_earliest_rounds :
    resolveFameFromVoteHistory "w" [noRound, openRound, yesRound] 2 =
      resolveFameFromVoteHistory "w" [openRound, yesRound] 2 ∧
    resolveFameFromVoteHistory "w" [openRound] 2 = pendingRecord [openRound] ∧
    ∃ k, resolveFameFromVoteHistory "w" [openRound, (4, [])] 2 = coinRecord "w" [openRound, (4, [])] k := by
  have hopen : ∀ history : Dict Nat Votes, (∀ k ∈ Dict.keys history, carried history 2 k = false) →
      ∀ k, ¬ Decisive history 2 k := by
    intro history hall k hk
    obtain ⟨hkey, hcarried⟩ := decisive_iff.1 hk
    rw [hall k hkey] at hcarried
    cases hcarried
  refine ⟨?_, ?_, ?_⟩
  · have hyes : Decisive [openRound, yesRound] 2 2 := ⟨by decide, true, by decide⟩
    obtain ⟨k, hleast, -, hlater⟩ := (resolve_earliest "w" [openRound, yesRound] 2).1 ⟨2, hyes⟩
    refine hlater _ fun j hj => ?_
    have hle : k ≤ 2 := hleast.2 hyes
    exact if_neg (by omega)
  · exact ((resolve_earliest "w" [openRound] 2).2 (hopen _ (by decide))).2 (by decide)
  · obtain ⟨k, -, hcoin⟩ := ((resolve_earliest "w" [openRound, (4, [])] 2).2 (hopen _ (by decide))).1 (by decide)
    exact ⟨k, hcoin⟩

end Mdrj.L2
