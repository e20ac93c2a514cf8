import Mdrj.L4Node.Progress

/-!
# Concurrent recordings of one checkpoint

`_record_proposal_signature` reads the row, builds a new one and writes it
back: two storage calls, each atomic, in a worker thread. Any number of
calls for one round and one root may run at once. A schedule lists the
storage calls in the order they take the lock; the read that fetches the
return value changes nothing and is left out, and the membership is that of
the node throughout.

* `serial_call`: a call that is not interrupted is the sequential operation.
* `no_signature_lost`: the schedules that lose nothing are those in which a
  call that writes has seen what the finished calls wrote.
-/
namespace Mdrj.L4
open Mdrj.Core Mdrj.L1 Mdrj.L2 Mdrj.L3

/-- What the calls of one round and root differ in. -/
structure Contribution where
  membersSnapshotHash : Text
  proposerNodeId : String
  signature : String := ""

/-- Where a call stands. -/
inductive Phase where
  | waiting
  | holding (existing : Option CheckpointRow)   -- between its read and its write
  | finished
  deriving DecidableEq

/-- A storage call of a recording. -/
inductive StorageStep (ι : Type) where
  | get (i : ι)
  | upsert (i : ι) (now : Flt)

/-- The node and its calls under way. -/
structure Calls (ι : Type) where
  node : Node
  phase : ι → Phase

namespace Calls
variable {ι : Type} [DecidableEq ι] (round : Int) (root : Text) (calls : ι → Contribution)

def proposal (i : ι) : WireProposal :=
  ⟨round, root, (calls i).membersSnapshotHash, (calls i).proposerNodeId, (calls i).signature⟩

def setPhase (s : Calls ι) (i : ι) (phase : Phase) : Calls ι :=
  { s with phase := Function.update s.phase i phase }

/-- The row after the call's `upsert`. -/
def write (s : Calls ι) (existing : Option CheckpointRow) (q : CheckpointProposal) (now : Flt) : Calls ι :=
  let row := Node.signedRow existing q s.node.membershipNodeIds now
  { s with node := { s.node with storage := s.node.storage.upsertCheckpoint round row } }

/-- A call that raises or ignores its proposal is finished; a storage call
that is not the next one of its recording does not happen.
mirrors mdrj/node.py:1828-1863 -/
def step (s : Calls ι) : StorageStep ι → Calls ι
  | .get i =>
    match s.phase i, s.node.storage.getCheckpoint round with
    | .waiting, .ok existing =>
      if (proposal round root calls i).mismatches existing then s.setPhase i .finished
      else s.setPhase i (.holding existing)
    | .waiting, .error _ => s.setPhase i .finished
    | _, _ => s
  | .upsert i now =>
    match s.phase i, (proposal round root calls i).bound with
    | .holding existing, some q => (s.write round existing q now).setPhase i .finished
    | .holding _, none => s.setPhase i .finished
    | _, _ => s

/-- All calls are still to come. -/
def start (n : Node) : Calls ι := ⟨n, fun _ => .waiting⟩

/-- The signers of the stored row. -/
def signers (s : Calls ι) : List String :=
  ((Dict.get s.node.storage.checkpoints round).map fun row => Dict.keys row.signatures).getD []

/-- The proposers of all finished calls have signed. -/
def AllRecorded (s : Calls ι) : Prop :=
  ∀ i, s.phase i = .finished → (calls i).proposerNodeId ∈ s.signers round

/-- A storage call that loses nothing. A call that ends without writing has
its proposer in the row; one that writes has read, or adds itself, the
proposers of the finished calls, and does not write over a confirmation that
it neither read nor reaches. -/
def Covers (s : Calls ι) : StorageStep ι → Prop
  | .get i => s.phase i = .waiting →
      (∀ existing, s.node.storage.getCheckpoint round = .ok existing →
        (proposal round root calls i).mismatches existing = true) →
      (calls i).proposerNodeId ∈ s.signers round
  | .upsert i _ => ∀ existing, s.phase i = .holding existing →
      if (proposal round root calls i).bound.isNone then (calls i).proposerNodeId ∈ s.signers round
      else
        (∀ j, s.phase j = .finished → (calls j).proposerNodeId = (calls i).proposerNodeId ∨
          (calls j).proposerNodeId ∈ (existing.map fun row => Dict.keys row.signatures).getD []) ∧
        (Confirmed s.node.storage round → existing.map CheckpointRow.status = some .confirmed ∨
          (proposal round root calls i).confirms existing s.node.membershipNodeIds = true)

/-! ## One storage call -/

section Step
variable {round root calls}

@[simp] theorem setPhase_node (s : Calls ι) (i : ι) (phase : Phase) :
    (s.setPhase i phase).node = s.node := rfl

theorem setPhase_of_ne (s : Calls ι) {i j : ι} (phase : Phase) (h : j ≠ i) :
    (s.setPhase i phase).phase j = s.phase j := Function.update_of_ne h ..

theorem setPhase_self (s : Calls ι) (i : ι) (phase : Phase) : (s.setPhase i phase).phase i = phase :=
  Function.update_self ..

/-- Ending a call without a write. -/
theorem finish_recorded {s : Calls ι} (h : s.AllRecorded round calls) (i : ι) :
    (s.setPhase i .finished).AllRecorded round calls ↔ (calls i).proposerNodeId ∈ s.signers round := by
  constructor
  · intro hall
    exact hall i (setPhase_self ..)
  · intro hi j hj
    by_cases hji : j = i
    · subst hji; exact hi
    · rw [setPhase_of_ne s _ hji] at hj
      exact h j hj

theorem hold_recorded {s : Calls ι} (h : s.AllRecorded round calls) (i : ι)
    (existing : Option CheckpointRow) : (s.setPhase i (.holding existing)).AllRecorded round calls := by
  intro j hj
  by_cases hji : j = i
  · subst hji
    rw [setPhase_self] at hj
    cases hj
  · rw [setPhase_of_ne s _ hji] at hj
    exact h j hj

omit [DecidableEq ι] in
/-- The row written has the signers read and the call's own. -/
theorem mem_signers_write (s : Calls ι) (existing : Option CheckpointRow) (q : CheckpointProposal)
    (now : Flt) (k : String) : k ∈ (s.write round existing q now).signers round ↔
      k = q.proposerNodeId ∨ k ∈ (existing.map fun row => Dict.keys row.signatures).getD [] := by
  obtain ⟨t, ht⟩ := s.node.storage.upsertCheckpoint_get round
    (Node.signedRow existing q s.node.membershipNodeIds now)
  unfold signers write
  dsimp only
  rw [ht]
  dsimp only [Option.map_some, Option.getD_some, Node.signedRow]
  rw [Dict.mem_keys_set]
  cases existing <;> rfl

omit [DecidableEq ι] in
theorem confirmed_write (s : Calls ι) (existing : Option CheckpointRow) (q : CheckpointProposal)
    (now : Flt) : Confirmed (s.write round existing q now).node.storage round ↔
      existing.map CheckpointRow.status = some .confirmed ∨
        q.wire.confirms existing s.node.membershipNodeIds = true := by
  obtain ⟨t, ht⟩ := s.node.storage.upsertCheckpoint_get round
    (Node.signedRow existing q s.node.membershipNodeIds now)
  unfold Confirmed write
  dsimp only
  rw [ht, ← signedRow_status now, Option.map_some, Option.some.injEq]

theorem get_covers {s : Calls ι} (h : s.AllRecorded round calls) (i : ι) :
    s.Covers round root calls (.get i) ↔
      (s.step round root calls (.get i)).AllRecorded round calls ∧
        (Confirmed s.node.storage round →
          Confirmed (s.step round root calls (.get i)).node.storage round) := by
  unfold Covers step
  dsimp only
  cases hphase : s.phase i with
  | waiting =>
    cases hget : s.node.storage.getCheckpoint round with
    | error err =>
      dsimp only
      rw [finish_recorded h]
      simp
    | ok existing =>
      dsimp only
      by_cases hmis : (proposal round root calls i).mismatches existing = true
      · rw [if_pos hmis, finish_recorded h]
        simp [hmis]
      · rw [if_neg hmis]
        have hrec := hold_recorded h i existing
        simp only [hrec, true_and]
        exact ⟨fun _ hc => hc, fun _ _ hall => absurd (hall existing rfl) hmis⟩
  | holding existing => simp [h]
  | finished => simp [h]

theorem upsert_covers {s : Calls ι} (h : s.AllRecorded round calls) (i : ι) (now : Flt) :
    s.Covers round root calls (.upsert i now) ↔
      (s.step round root calls (.upsert i now)).AllRecorded round calls ∧
        (Confirmed s.node.storage round →
          Confirmed (s.step round root calls (.upsert i now)).node.storage round) := by
  unfold Covers step
  dsimp only
  cases hphase : s.phase i with
  | waiting => simp [h]
  | finished => simp [h]
  | holding existing =>
    simp only [Phase.holding.injEq, forall_eq']
    cases hbound : (proposal round root calls i).bound with
    | none =>
      dsimp only
      rw [finish_recorded h]
      simp
    | some q =>
      have hq : proposal round root calls i = q.wire := WireProposal.bound_eq_some.1 hbound
      have hproposer : q.proposerNodeId = (calls i).proposerNodeId :=
        (congrArg WireProposal.proposerNodeId hq).symm
      have hsigners : ∀ k, k ∈ (s.write round existing q now).signers round ↔ _ :=
        mem_signers_write s existing q now
      have hconfirmed : Confirmed ((s.write round existing q now).setPhase i .finished).node.storage
          round ↔ _ := confirmed_write s existing q now
      dsimp only
      rw [hconfirmed, hq]
      simp only [Option.isNone_some, Bool.false_eq_true, if_false]
      refine and_congr_left fun _ => ?_
      constructor
      · intro hall j hj
        change _ ∈ (s.write round existing q now).signers round
        rw [hsigners, hproposer]
        by_cases hji : j = i
        · exact .inl (by rw [hji])
        · rw [setPhase_of_ne _ _ hji] at hj
          exact hall j hj
      · intro hall j hj
        have hji : j ≠ i := by
          intro hji
          rw [hji, hphase] at hj
          cases hj
        have hj' : ((s.write round existing q now).setPhase i .finished).phase j = .finished := by
          rw [setPhase_of_ne _ _ hji]
          exact hj
        rw [← hproposer]
        exact (hsigners _).1 (hall j hj')

end Step

/-- A call that is not interrupted does what the sequential operation does. -/
theorem serial_call {s : Calls ι} {i : ι} (h : s.phase i = .waiting) (now : Flt) (count : Nat) :
    (run (step round root calls) s [.get i, .upsert i now]).node =
      (Process.recordProposalSignature ⟨s.node, count⟩ (proposal round root calls i) now).1.node := by
  change (step round root calls (step round root calls s (.get i)) (.upsert i now)).node = _
  unfold Process.recordProposalSignature
  have hround : (proposal round root calls i).roundReceived = round := rfl
  simp only [step, h, hround]
  cases s.node.storage.getCheckpoint round with
  | error err => simp [setPhase_self]
  | ok existing =>
    by_cases hmis : (proposal round root calls i).mismatches existing = true
    · simp [hmis, setPhase_self]
    · simp only [hmis]
      cases hbound : (proposal round root calls i).bound with
      | none => simp [setPhase_self]
      | some q =>
        have hq : q.roundReceived = round :=
          (congrArg WireProposal.roundReceived (WireProposal.bound_eq_some.1 hbound)).symm
        simp [setPhase_self, write, hq]

/-- **No signature is lost.** Along a schedule every finished call has its
proposer in the row, and a confirmed row stays confirmed, if and only if
every storage call of the schedule covers what is finished. -/
theorem no_signature_lost (n : Node) (schedule : List (StorageStep ι)) :
    Admits (step round root calls) (Covers round root calls) (start n) schedule ↔
      (∀ pre, pre <+: schedule → AllRecorded round calls (run (step round root calls) (start n) pre)) ∧
      ∀ pre pre', pre <+: pre' → pre' <+: schedule →
        Confirmed (run (step round root calls) (start n) pre).node.storage round →
          Confirmed (run (step round root calls) (start n) pre').node.storage round := by
  have hstart : AllRecorded round calls (start n : Calls ι) := fun i hi => nomatch hi
  rw [← related_iff (R := fun (s s' : Calls ι) => Confirmed s.node.storage round →
    Confirmed s'.node.storage round) (fun _ h => h) (fun h h' hc => h' (h hc))]
  refine admits_iff_kept (R := fun (s s' : Calls ι) => Confirmed s.node.storage round →
    Confirmed s'.node.storage round) (fun s a h => ?_) hstart
  cases a with
  | get i => exact get_covers h i
  | upsert i now => exact upsert_covers h i now

/-- A node of a cluster of three, without checkpoints. -/
def ofThree : Node where
  config := { nodeId := "a" }
  membership := ⟨[⟨"a", "self:a", "node", true⟩, ⟨"b", "b:1", "node", false⟩,
    ⟨"c", "c:1", "node", false⟩], ""⟩

/-- One proposal of each member. -/
def threeCalls : Fin 3 → Contribution
  | 0 => ⟨.plain "", "a", "s"⟩
  | 1 => ⟨.plain "", "b", "s"⟩
  | 2 => ⟨.plain "", "c", "s"⟩

/-- The local proposal reads first and writes last. -/
def overlapping : List (StorageStep (Fin 3)) :=
  [.get 0, .get 1, .upsert 1 (.fin 1), .get 2, .upsert 2 (.fin 2), .upsert 0 (.fin 3)]

/-- The three calls return, the row was confirmed with the fifth storage
call, and at the end it is pending with one signature. -/
theorem overlapping_calls_lose :
    (∀ i, (run (step 0 (.plain "r") threeCalls) (start ofThree) overlapping).phase i = .finished) ∧
    (run (step 0 (.plain "r") threeCalls) (start ofThree) overlapping).signers 0 = ["a"] ∧
    Confirmed (run (step 0 (.plain "r") threeCalls) (start ofThree) (overlapping.take 5)).node.storage 0 ∧
    ¬ Confirmed (run (step 0 (.plain "r") threeCalls) (start ofThree) overlapping).node.storage 0 := by
  decide +kernel

end Calls
end Mdrj.L4
