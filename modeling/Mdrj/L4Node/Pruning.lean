import Mdrj.Core.Runs
import Mdrj.L4Node.Retention

/-!
# Pruned events that come back

A retention pass moves an event from `events` to `event_skeletons`, and the
hot tables are meant to stay bounded by it. Whether an event is a duplicate
is decided by `store_envelope` on `events` alone. Peers that have not pruned
yet go on offering the event, in gossip batches and in answers to a frontier
sync, which asks for every id that `get_event` does not find. Such an event
is inserted again, next to its skeleton (`pruned_event_returns`).

Main result: `pruning_permanent_iff`. From any state, pruned events stay out
of `events` exactly in the runs none of whose calls offers the store an event
of which only the skeleton is left.
-/
namespace Mdrj.L4
open Mdrj.Core Mdrj.L1 Mdrj.L3

/-- Only the skeleton of the event is left. -/
def Pruned (x : String) (n : Node) : Prop :=
  x ∈ Dict.keys n.storage.eventSkeletons ∧ x ∉ n.storage.ids

/-- The calls that write the tables of events. Gossip and frontier sync
deliver through `ingest`. -/
inductive HistoryAct where
  | ingest (envelopes : List (Envelope × Flt))
  | emit (cls : EventClass) (payload : Json) (ts now : Flt) (pick : Nat)
  | recompute
  | retain (now : Flt)

namespace HistoryAct

def step (n : Node) : HistoryAct → Node
  | .ingest envelopes => (n.ingestEnvelopes envelopes).node
  | .emit cls payload ts now pick => (n.emitEvent cls payload ts now pick).node
  | .recompute => n.recomputeConsensus.node
  | .retain now => (n.runRetentionOnce now).node

/-- The envelopes a call hands to `store_envelope`. -/
def offered (n : Node) : HistoryAct → List (Envelope × Flt)
  | .ingest envelopes => envelopes
  | .emit cls payload ts now pick =>
    [(⟨n.nextEvent cls payload ts pick, [⟨some n.config.nodeId, some ts⟩]⟩, now)]
  | .recompute => []
  | .retain _ => []

end HistoryAct

/-- Among the envelopes the store gets to, one that it inserts has a
skeleton. -/
def readmits (skeletons known : List String) : List (Envelope × Flt) → Bool
  | [] => false
  | (envelope, _) :: rest =>
    if envelope.event.id ∈ known then readmits skeletons known rest
    else if (DAGStorage.insertError envelope.event).isSome then false   -- the call raises here
    else envelope.event.id ∈ skeletons || readmits skeletons (known ++ [envelope.event.id]) rest

/-- The call offers no event of which only the skeleton is left. -/
def HistoryAct.Fresh (n : Node) (a : HistoryAct) : Prop :=
  readmits (Dict.keys n.storage.eventSkeletons) n.storage.ids (a.offered n) = false

/-! ## One call -/

/-- The same ids and skeletons. -/
structure SameHistory (n n' : Node) : Prop where
  ids : n'.storage.ids = n.storage.ids
  skeletons : n'.storage.eventSkeletons = n.storage.eventSkeletons

section Step
variable {n n' : Node} {x : String}

theorem SameHistory.pruned_iff (h : SameHistory n n') : Pruned x n' ↔ Pruned x n := by
  unfold Pruned
  rw [h.ids, h.skeletons]

theorem SameHistory.refl (n : Node) : SameHistory n n := ⟨rfl, rfl⟩

theorem SameHistory.trans {n'' : Node} (h : SameHistory n n') (h' : SameHistory n' n'') :
    SameHistory n n'' :=
  ⟨h'.ids.trans h.ids, h'.skeletons.trans h.skeletons⟩

theorem recompute_history (n : Node) : SameHistory n n.recomputeConsensus.node := by
  obtain ⟨states, hnode⟩ := n.recomputeConsensus_node
  rw [hnode]
  refine ⟨DAGStorage.replaceConsensusState_ids n.storage states, ?_⟩
  rw [DAGStorage.replaceConsensusState_eq]

/-- What storing one envelope does to the ids and skeletons. -/
theorem persistEnvelope_history (n : Node) (envelope : Envelope) (now : Flt) :
    (envelope.event.id ∈ n.storage.ids ∧
      ∃ n', n.persistEnvelope envelope now = ⟨n', .ok false⟩ ∧ SameHistory n n') ∨
    (envelope.event.id ∉ n.storage.ids ∧ ∃ err, DAGStorage.insertError envelope.event = some err ∧
      n.persistEnvelope envelope now = ⟨n, .error err⟩) ∨
    (envelope.event.id ∉ n.storage.ids ∧ DAGStorage.insertError envelope.event = none ∧
      ∃ n', n.persistEnvelope envelope now = ⟨n', .ok true⟩ ∧
        n'.storage.ids = n.storage.ids ++ [envelope.event.id] ∧
        n'.storage.eventSkeletons = n.storage.eventSkeletons) := by
  unfold Node.persistEnvelope
  by_cases hid : envelope.event.id ∈ n.storage.ids
  · rw [DAGStorage.storeEnvelope_known hid]
    exact .inl ⟨hid, _, rfl, DAGStorage.ids_fillRows envelope.event n.storage.events, rfl⟩
  · cases hins : DAGStorage.insertError envelope.event with
    | some err =>
      rw [DAGStorage.storeEnvelope_refused hid hins]
      exact .inr (.inl ⟨hid, err, rfl, rfl⟩)
    | none =>
      rw [DAGStorage.storeEnvelope_new hid hins]
      exact .inr (.inr ⟨hid, rfl, _, rfl, List.map_append, rfl⟩)

/-- A batch never removes an id. -/
theorem mem_ids_ingestLoop (newIds : List String) (envelopes : List (Envelope × Flt))
    (h : x ∈ n.storage.ids) : x ∈ (Node.ingestLoop n newIds envelopes).node.storage.ids := by
  refine Node.ingestLoop_ind (P := fun n => x ∈ n.storage.ids) (Q := fun _ => True) ?_ envelopes n newIds
    (fun _ _ => trivial) h
  intro n p _ hx
  rcases persistEnvelope_history n p.1 p.2 with ⟨-, n', heq, hsame⟩ | ⟨-, err, -, heq⟩ |
    ⟨-, -, n', heq, hids, -⟩
  · rw [heq, hsame.ids]; exact hx
  · rw [heq]; exact hx
  · rw [heq, hids]; exact List.mem_append_left _ hx

/-- The loop of a batch leaves the pruned events pruned exactly when it
readmits none. -/
theorem ingestLoop_pruned_iff (envelopes : List (Envelope × Flt)) :
    ∀ (n : Node) (newIds : List String),
      (∀ x, Pruned x n → Pruned x (Node.ingestLoop n newIds envelopes).node) ↔
        readmits (Dict.keys n.storage.eventSkeletons) n.storage.ids envelopes = false := by
  induction envelopes with
  | nil => exact fun n newIds => iff_of_true (fun _ h => h) rfl
  | cons p rest ih =>
    obtain ⟨envelope, now⟩ := p
    intro n newIds
    unfold Node.ingestLoop readmits
    rcases persistEnvelope_history n envelope now with ⟨hid, n', heq, hsame⟩ | ⟨hid, err, hins, heq⟩ |
      ⟨hid, hins, n', heq, hids, hskel⟩
    · rw [heq, if_pos hid, ← hsame.ids, ← hsame.skeletons, ← ih n' newIds]
      exact forall_congr' fun x => imp_congr_left hsame.pruned_iff.symm
    · rw [heq, if_neg hid, hins]
      exact iff_of_true (fun _ h => h) rfl
    · rw [heq, if_neg hid, hins, if_neg (by exact Bool.false_ne_true), ← hids, ← hskel]
      dsimp only
      rw [if_pos rfl, Bool.or_eq_false_iff, decide_eq_false_iff_not]
      constructor
      · intro h
        have hnew : envelope.event.id ∉ Dict.keys n'.storage.eventSkeletons := by
          -- the event was just inserted
          intro hx
          refine (h envelope.event.id ⟨hskel ▸ hx, hid⟩).2 (mem_ids_ingestLoop _ _ ?_)
          rw [hids]
          exact List.mem_append_right _ List.mem_cons_self
        refine ⟨hnew, (ih n' _).1 fun x hx => h x ⟨hskel ▸ hx.1, fun hmem => hx.2 ?_⟩⟩
        rw [hids]
        exact List.mem_append_left _ hmem
      · intro h x hx
        refine (ih n' _).2 h.2 x ⟨hskel ▸ hx.1, ?_⟩
        rw [hids, List.mem_append, List.mem_singleton, not_or]
        exact ⟨hx.2, fun he => h.1 (he ▸ hskel ▸ hx.1)⟩

/-- After its loop, a batch only recomputes. -/
theorem ingestEnvelopes_history (n : Node) (envelopes : List (Envelope × Flt)) :
    SameHistory (Node.ingestLoop n [] envelopes).node (n.ingestEnvelopes envelopes).node :=
  Node.ingestEnvelopes_of_loop (P := SameHistory (Node.ingestLoop n [] envelopes).node)
    (fun n' h => h.trans (recompute_history n')) (.refl _)

/-- An emission stores its event as a batch of one would. -/
theorem emitEvent_history (n : Node) (cls : EventClass) (payload : Json) (ts now : Flt) (pick : Nat) :
    SameHistory (Node.ingestLoop n [] ((HistoryAct.emit cls payload ts now pick).offered n)).node
      (n.emitEvent cls payload ts now pick).node := by
  refine Node.emitEvent_of_persist (P := SameHistory _) (fun n' h => h.trans (recompute_history n'))
    (fun _ h => ⟨h.ids, h.skeletons⟩) ?_
  -- the anchors are not among what the store reads
  unfold HistoryAct.offered Node.ingestLoop Node.persistEnvelope
  dsimp only
  cases n.storage.storeEnvelope
      ⟨n.nextEvent cls payload ts pick, [⟨some n.config.nodeId, some ts⟩]⟩
      (n.nextEvent cls payload ts pick).consensusTs now with
  | error err => exact ⟨rfl, rfl⟩
  | ok p => exact ⟨rfl, rfl⟩

theorem runRetentionOnce_skeletons (now : Flt) (h : x ∈ Dict.keys n.storage.eventSkeletons) :
    x ∈ Dict.keys (n.runRetentionOnce now).node.storage.eventSkeletons := by
  rcases n.runRetentionOnce_cases now with heq | heq | ⟨confirmedRound, maxAge, heq⟩
  · rw [heq]; exact h
  · rw [heq]; exact h
  · rw [heq]; exact Dict.mem_keys_foldl_set _ _ h

/-- A pass drops rows and adds skeletons. -/
theorem runRetentionOnce_pruned (now : Flt) (h : Pruned x n) : Pruned x (n.runRetentionOnce now).node := by
  refine ⟨runRetentionOnce_skeletons now h.1, ?_⟩
  rw [DAGStorage.ids, runRetentionOnce_events]
  intro hx
  exact h.2 ((List.filter_sublist.map _).subset hx)

/-- A call is a retention pass, or it stores what it offers and recomputes
at most. -/
theorem HistoryAct.step_history (n : Node) (a : HistoryAct) : (∃ now, a = .retain now) ∨
    SameHistory (Node.ingestLoop n [] (a.offered n)).node (a.step n) := by
  cases a with
  | ingest envelopes => exact .inr (ingestEnvelopes_history n envelopes)
  | emit cls payload ts now pick => exact .inr (emitEvent_history n cls payload ts now pick)
  | recompute => exact .inr (recompute_history n)
  | retain now => exact .inl ⟨now, rfl⟩

/-- It leaves the pruned events pruned exactly when it offers none of them. -/
theorem HistoryAct.pruned_iff (n : Node) (a : HistoryAct) :
    (∀ x, Pruned x n → Pruned x (a.step n)) ↔ a.Fresh n := by
  rcases a.step_history n with ⟨now, rfl⟩ | hsame
  · exact iff_of_true (fun _ h => runRetentionOnce_pruned now h) rfl
  · unfold HistoryAct.Fresh
    rw [← ingestLoop_pruned_iff (a.offered n) n []]
    exact forall_congr' fun x => imp_congr_right fun _ => hsame.pruned_iff

/-- Skeletons are never deleted. -/
theorem HistoryAct.skeletons_step (a : HistoryAct) (h : x ∈ Dict.keys n.storage.eventSkeletons) :
    x ∈ Dict.keys (a.step n).storage.eventSkeletons := by
  rcases a.step_history n with ⟨now, rfl⟩ | hsame
  · exact runRetentionOnce_skeletons now h
  · rw [hsame.skeletons]
    refine Node.ingestLoop_ind (P := fun n => x ∈ Dict.keys n.storage.eventSkeletons)
      (Q := fun _ => True) ?_ (a.offered n) n [] (fun _ _ => trivial) h
    intro n p _ hx
    rcases persistEnvelope_history n p.1 p.2 with ⟨-, n', heq, hsame⟩ | ⟨-, err, -, heq⟩ |
      ⟨-, -, n', heq, -, hskel⟩
    · rw [heq, hsame.skeletons]; exact hx
    · rw [heq]; exact hx
    · rw [heq, hskel]; exact hx

end Step

/-! ## Runs -/

/-- **Pruning is permanent.** An event of which only the skeleton is left at
some point of a run stays out of `events` from then on, exactly when no call
of the run offers such an event to the store. -/
theorem pruning_permanent_iff (n : Node) (acts : List HistoryAct) :
    (∀ pre pre' x, pre <+: pre' → pre' <+: acts → Pruned x (run HistoryAct.step n pre) →
      x ∉ (run HistoryAct.step n pre').storage.ids) ↔
    Admits HistoryAct.step (fun n a => a.Fresh n) n acts := by
  have hstep : (fun (n : Node) a => HistoryAct.Fresh n a) =
      fun n a => ∀ x, Pruned x n → Pruned x (HistoryAct.step n a) := by
    funext n a
    exact propext (HistoryAct.pruned_iff n a).symm
  rw [hstep, related_iff (R := fun n n' => ∀ x, Pruned x n → Pruned x n') (fun _ _ h => h)
    fun h h' x hx => h' x (h x hx)]
  constructor
  · intro h pre pre' hle hpre' x hx
    refine ⟨?_, h pre pre' x hle hpre' hx⟩
    obtain ⟨rest, rfl⟩ := hle
    rw [run, List.foldl_append]
    exact run_always (I := fun n : Node => x ∈ Dict.keys n.storage.eventSkeletons)
      (fun n a hx => a.skeletons_step hx) rest hx.1
  · intro h pre pre' x hle hpre' hx
    exact (h pre pre' hle hpre' x hx).2

/-- The two events of a node that keeps thirty days. -/
def thirtyDays : Node := pair { enabled := true, maxAgeDays := 30 } (.fin 0)

/-- A month later the first event is pruned, and a peer that still has it
sends it again. -/
def pruneThenIngest : List HistoryAct :=
  [.retain (.fin 2700000), .ingest [(⟨first, []⟩, .fin 2700001)]]

/-- The event is stored once more. -/
theorem pruned_event_returns : ¬ ∀ pre pre' x, pre <+: pre' → pre' <+: pruneThenIngest →
    Pruned x (run HistoryAct.step thirtyDays pre) →
      x ∉ (run HistoryAct.step thirtyDays pre').storage.ids := by
  intro h
  have hpruned : Pruned "a0" (run HistoryAct.step thirtyDays [.retain (.fin 2700000)]) := by
    refine ⟨?_, ?_⟩
    · decide +kernel
    · decide +kernel
  have hstored : "a0" ∈ (Node.ingestLoop (run HistoryAct.step thirtyDays [.retain (.fin 2700000)]) []
      [(⟨first, []⟩, .fin 2700001)]).node.storage.ids := by
    decide +kernel
  refine h [.retain (.fin 2700000)] pruneThenIngest "a0" ⟨_, rfl⟩ (List.prefix_refl _) hpruned ?_
  exact (ingestEnvelopes_history _ _).ids.symm ▸ hstored

end Mdrj.L4
