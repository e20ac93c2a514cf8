import Mdrj.L4Node.Relay

/-!
# Gossip between nodes

Every node stores, ticks and prunes by itself. A peer answers a batch with 200
after its `ingest_envelopes` has returned, so after it has persisted every
envelope of the batch; a request or an answer may be lost, and requests may
be carried out late or more than once, among anything else the peer does.

Every node starts with at most 1000 events, which priming queues, and has a
`fan_out` that is not negative.

Results:
* `handed_on`: in every run an event that is stored at a node is still queued
  or in hand there, or some peer it may contact has stored it; class C may be
  dropped, and an emission that raised leaves its event stranded.
* `same_journal`: two nodes that gossip with each other, delete nothing, hold
  no events of class C and strand none have the same events whenever both
  queues are empty and no batch is in hand.

With three nodes or more the second fails: a batch that one peer has taken is
not sent to the others, and each of them hears of it from that peer, or not.
-/
namespace Mdrj.L5
open Mdrj.Core Mdrj.L1 Mdrj.L2 Mdrj.L3 Mdrj.L4

/-! ## The network -/

/-- The nodes, by address. -/
structure GossipNet where
  nodes : String → Sender
  /-- ghost: the ids of the envelopes that `store_envelope` has taken -/
  persisted : String → List String := fun _ => []

/-- One step of one node. -/
structure NetAct where
  address : String
  act : SenderAct

/-- The ids that a step persists. -/
def persistedBy (s : Sender) : SenderAct → List String
  | .persist envelope now _ =>
    match s.storage.storeEnvelope envelope envelope.event.consensusTs now with
    | .ok _ => [envelope.event.id]
    | .error _ => []
  | _ => []

namespace GossipNet

def step (engines : String → GossipEngine) (net : GossipNet) (a : NetAct) : GossipNet where
  nodes := Function.update net.nodes a.address ((net.nodes a.address).step (engines a.address) a.act)
  persisted := Function.update net.persisted a.address
    (net.persisted a.address ++ persistedBy (net.nodes a.address) a.act)

/-- A tick selects peers it may contact, and a 200 comes from a peer whose
handler has returned.
mirrors mdrj/api.py:7139-7148 -/
def Honest (links : String → String → Prop) (net : GossipNet) (a : NetAct) : Prop :=
  match a.act with
  | .tick _ _ selected => ∀ b ∈ selected, links a.address b
  | .sent outcome => outcome.is200 = true → ∀ tick, (net.nodes a.address).gossip.phase = .sending tick →
    ∃ b ∈ tick.todo.head?, ∀ id ∈ tick.batch, id ∈ net.persisted b
  | _ => True

/-- All queues are primed, and nothing has been persisted since. -/
structure Start (net : GossipNet) : Prop where
  primed : ∀ a, ∃ storage, Tables storage ∧ storage.events.length ≤ 1000 ∧
    net.nodes a = Sender.primeGossip storage
  persisted : ∀ a, net.persisted a = []

/-- Nothing is waiting to be sent. -/
def Quiet (net : GossipNet) (a : String) : Prop :=
  (net.nodes a).gossip.queue.pending = [] ∧ (net.nodes a).gossip.phase.inHand = []

end GossipNet

/-- The node has the event, or has pruned it. -/
def Held (s : Sender) (id : String) : Prop :=
  id ∈ s.storage.ids ∨ id ∈ Dict.keys s.storage.eventSkeletons

/-! ## What a step keeps -/

section Steps
variable {e : GossipEngine} {s : Sender} {id : String}

theorem fanoutCritical_storage (s : Sender) (eventId : String) (outcomes : List SendOutcome) :
    (s.fanoutCritical eventId outcomes).storage = s.storage :=
  Sender.fanoutCritical_kept (P := fun s' => s'.storage = s.storage) (fun _ _ h => h) rfl

theorem broadcastEvent_storage (s : Sender) (eventId : String) (outcomes : List SendOutcome) :
    (s.broadcastEvent eventId outcomes).storage = s.storage :=
  Sender.broadcastEvent_kept (P := fun s' => s'.storage = s.storage) (fun _ _ h => h) rfl

theorem primeGossip_fresh (storage : DAGStorage) : (Sender.primeGossip storage).gossip.phase = .idle ∧
    (Sender.primeGossip storage).answered = [] := by
  unfold Sender.primeGossip
  refine List.foldlRecOn _ _ (motive := fun s : Sender => s.gossip.phase = .idle ∧ s.answered = [])
    ⟨rfl, rfl⟩ fun s h event _ => h

/-- What is deleted leaves a skeleton. -/
theorem prune_held {storage : DAGStorage} (confirmedRound : Int) (maxAgeSeconds : Flt) (keepClassA : Bool)
    (now : Flt) (h : id ∈ storage.ids ∨ id ∈ Dict.keys storage.eventSkeletons) :
    id ∈ (storage.pruneUnderCheckpoint confirmedRound maxAgeSeconds keepClassA now).1.ids ∨
      id ∈ Dict.keys (storage.pruneUnderCheckpoint confirmedRound maxAgeSeconds keepClassA now).1.eventSkeletons := by
  unfold DAGStorage.pruneUnderCheckpoint
  dsimp only
  rcases h with hid | hskeleton
  · obtain ⟨row, hrow, rfl⟩ := List.mem_map.1 hid
    cases hprunable : DAGStorage.prunable confirmedRound (now.sub maxAgeSeconds) keepClassA row with
    | false =>
      refine .inl (List.mem_map.2 ⟨row, List.mem_filter.2 ⟨hrow, ?_⟩, rfl⟩)
      rw [hprunable]
      rfl
    | true =>
      refine .inr (Dict.mem_keys_foldl_set_of_mem (fun row : EventRow => row.event.id) _ ?_)
      rw [List.mem_insertionSort]
      exact List.mem_filter.2 ⟨hrow, hprunable⟩
  · exact .inr (Dict.mem_keys_foldl_set _ _ hskeleton)

/-- Its tables are as they were, or an envelope was stored and some states
written, maybe none. -/
theorem persist_storage (s : Sender) (envelope : Envelope) (now : Flt) (recompute : Option (List ConsensusState)) :
    (∃ err, s.storage.storeEnvelope envelope envelope.event.consensusTs now = .error err) ∧
      (s.persistEnvelope envelope now recompute).storage = s.storage ∨
    ∃ storage stored states,
      s.storage.storeEnvelope envelope envelope.event.consensusTs now = .ok (storage, stored) ∧
        (s.persistEnvelope envelope now recompute).storage = storage.replaceConsensusState states := by
  rcases s.persistEnvelope_cases envelope now recompute with ⟨herr, heq⟩ | ⟨storage, stored, hs, hraised | hqueued⟩
  · exact .inl ⟨herr, by rw [heq]⟩
  · exact .inr ⟨storage, stored, [], hs, by rw [hraised.2]; rfl⟩
  · obtain ⟨states, heq⟩ := hqueued
    refine .inr ⟨storage, stored, states, hs, ?_⟩
    rw [heq]
    cases stored with
    | false => rfl
    | true => rfl

theorem persist_ids {envelope : Envelope} {now : Flt} {recompute : Option (List ConsensusState)}
    (h : id ∈ s.storage.ids) : id ∈ (s.persistEnvelope envelope now recompute).storage.ids := by
  rcases persist_storage s envelope now recompute with ⟨-, heq⟩ | ⟨storage, stored, states, hs, heq⟩
  · exact heq ▸ h
  · rw [heq, DAGStorage.replaceConsensusState_ids]
    rcases DAGStorage.storeEnvelope_ids hs with ⟨-, -, hmap⟩ | ⟨-, -, hmap⟩
    · exact hmap ▸ h
    · exact hmap ▸ List.mem_append_left _ h

theorem persist_skeletons (envelope : Envelope) (now : Flt) (recompute : Option (List ConsensusState)) :
    (s.persistEnvelope envelope now recompute).storage.eventSkeletons = s.storage.eventSkeletons := by
  rcases persist_storage s envelope now recompute with ⟨-, heq⟩ | ⟨storage, stored, states, hs, heq⟩
  · rw [heq]
  · rw [heq, DAGStorage.replaceConsensusState_eq]
    rcases DAGStorage.storeEnvelope_cases hs with ⟨-, -, rfl⟩ | ⟨-, -, -, rfl⟩
    · rfl
    · rfl

theorem step_held (act : SenderAct) (h : Held s id) : Held (s.step e act) id := by
  unfold Held at h ⊢
  unfold Sender.step
  cases act with
  | persist envelope now recompute =>
    dsimp only
    rw [persist_skeletons]
    exact h.imp_left persist_ids
  | states states =>
    dsimp only
    rw [DAGStorage.replaceConsensusState_ids]
    rw [DAGStorage.replaceConsensusState_eq]
    exact h
  | prune confirmedRound maxAgeSeconds keepClassA now => exact prune_held _ _ _ _ h
  | tick now peers selected => exact h
  | sent outcome => exact h
  | fanout eventId outcomes =>
    dsimp only
    rw [fanoutCritical_storage]
    exact h
  | broadcast eventId outcomes =>
    dsimp only
    rw [broadcastEvent_storage]
    exact h

/-- What a step persists is there afterwards. -/
theorem persistedBy_held (act : SenderAct) (h : id ∈ persistedBy s act) : Held (s.step e act) id := by
  cases act with
  | persist envelope now recompute =>
    unfold persistedBy at h
    dsimp only at h
    change Held (s.persistEnvelope envelope now recompute) id
    rcases persist_storage s envelope now recompute with ⟨⟨err, herr⟩, -⟩ | ⟨storage, stored, states, hs, heq⟩
    · rw [herr] at h
      cases h
    · rw [hs] at h
      obtain rfl := List.mem_singleton.1 h
      refine .inl ?_
      rw [heq, DAGStorage.replaceConsensusState_ids]
      rcases DAGStorage.storeEnvelope_ids hs with ⟨hid, -, hmap⟩ | ⟨-, -, hmap⟩
      · exact hmap ▸ hid
      · exact hmap ▸ List.mem_append_right _ List.mem_cons_self
  | states | prune | tick | sent | fanout | broadcast => cases h

theorem persistEnvelope_phase (s : Sender) (envelope : Envelope) (now : Flt)
    (recompute : Option (List ConsensusState)) :
    (s.persistEnvelope envelope now recompute).gossip.phase = s.gossip.phase ∧
      (s.persistEnvelope envelope now recompute).answered = s.answered := by
  rcases s.persistEnvelope_cases envelope now recompute with ⟨-, heq⟩ | ⟨storage, stored, hs, hraised | hqueued⟩
  · rw [heq]
    exact ⟨rfl, rfl⟩
  · rw [hraised.2]
    exact ⟨rfl, rfl⟩
  · obtain ⟨states, heq⟩ := hqueued
    rw [heq]
    cases stored with
    | false => exact ⟨rfl, rfl⟩
    | true => exact ⟨rfl, rfl⟩

theorem fanoutCritical_phase (s : Sender) (eventId : String) (outcomes : List SendOutcome) :
    (s.fanoutCritical eventId outcomes).gossip.phase = s.gossip.phase ∧
      (s.fanoutCritical eventId outcomes).answered = s.answered :=
  Sender.fanoutCritical_kept (P := fun s' => s'.gossip.phase = s.gossip.phase ∧ s'.answered = s.answered)
    (fun _ _ h => h) ⟨rfl, rfl⟩

theorem broadcastEvent_phase (s : Sender) (eventId : String) (outcomes : List SendOutcome) :
    (s.broadcastEvent eventId outcomes).gossip.phase = s.gossip.phase ∧
      (s.broadcastEvent eventId outcomes).answered = s.answered :=
  Sender.broadcastEvent_kept (P := fun s' => s'.gossip.phase = s.gossip.phase ∧ s'.answered = s.answered)
    (fun _ _ h => h) ⟨rfl, rfl⟩

/-- The peers of a tick that has started. -/
theorem startTick_todo {queue : GossipQueue} {storage : DAGStorage} {now : Flt} {peers selected : List String}
    {tick : Tick} (h : (e.startTick queue storage now peers selected).phase = .sending tick) :
    tick.todo = selected := by
  unfold GossipEngine.startTick at h
  dsimp only at h
  split at h
  · cases h
  · split at h
    · cases h
    · split at h
      · cases h
      · split at h
        · cases h
        · split at h
          · cases h
          · obtain rfl := TickPhase.sending.inj h
            rfl

theorem sendEnded_todo {queue : GossipQueue} {tick tick' : Tick} {outcome : SendOutcome}
    (h : (GossipEngine.sendEnded queue tick outcome).phase = .sending tick') : tick'.todo = tick.todo.tail := by
  unfold GossipEngine.sendEnded at h
  dsimp only at h
  split at h
  · cases h
  · obtain rfl := TickPhase.sending.inj h
    rfl

/-- A step keeps to the peers of its tick. -/
theorem step_todo {P : String → Prop} (act : SenderAct)
    (hselected : ∀ now peers selected, act = .tick now peers selected → ∀ b ∈ selected, P b)
    (h : ∀ tick, s.gossip.phase = .sending tick → ∀ b ∈ tick.todo, P b) :
    ∀ tick, (s.step e act).gossip.phase = .sending tick → ∀ b ∈ tick.todo, P b := by
  intro tick htick
  cases act with
  | persist envelope now recompute => exact h tick ((persistEnvelope_phase s envelope now recompute).1 ▸ htick)
  | states states => exact h tick htick
  | prune confirmedRound maxAgeSeconds keepClassA now => exact h tick htick
  | tick now peers selected =>
    unfold Sender.step GossipEngine.step at htick
    dsimp only at htick
    split at htick
    · exact startTick_todo htick ▸ hselected now peers selected rfl
    · exact startTick_todo htick ▸ hselected now peers selected rfl
    · exact h tick htick
  | sent outcome =>
    unfold Sender.step GossipEngine.step at htick
    dsimp only at htick
    split at htick
    · rename_i tick' hphase
      intro b hb
      rw [sendEnded_todo htick] at hb
      exact h tick' hphase b (List.mem_of_mem_tail hb)
    · exact h tick htick
  | fanout eventId outcomes => exact h tick ((fanoutCritical_phase s eventId outcomes).1 ▸ htick)
  | broadcast eventId outcomes => exact h tick ((broadcastEvent_phase s eventId outcomes).1 ▸ htick)

/-- Only a 200 notes ids as answered, those of the batch in hand. -/
theorem step_answered (act : SenderAct) (h : id ∈ (s.step e act).answered) : id ∈ s.answered ∨
    ∃ outcome tick, act = .sent outcome ∧ outcome.is200 = true ∧ s.gossip.phase = .sending tick ∧ id ∈ tick.batch := by
  cases act with
  | persist envelope now recompute => exact .inl ((persistEnvelope_phase s envelope now recompute).2 ▸ h)
  | states states => exact .inl h
  | prune confirmedRound maxAgeSeconds keepClassA now => exact .inl h
  | tick now peers selected => exact .inl h
  | sent outcome =>
    rcases List.mem_append.1 h with hold | hnew
    · exact .inl hold
    · cases h200 : outcome.is200 with
      | false =>
        rw [h200] at hnew
        cases hnew
      | true =>
        rw [if_pos h200] at hnew
        cases hphase : s.gossip.phase with
        | sending tick =>
          rw [hphase] at hnew
          exact .inr ⟨outcome, tick, rfl, h200, rfl, hnew⟩
        | idle | ended | raised =>
          rw [hphase] at hnew
          cases hnew
  | fanout eventId outcomes => exact .inl ((fanoutCritical_phase s eventId outcomes).2 ▸ h)
  | broadcast eventId outcomes => exact .inl ((broadcastEvent_phase s eventId outcomes).2 ▸ h)

end Steps

/-! ## Runs -/

section Runs
variable {engines : String → GossipEngine} {links : String → String → Prop} {net : GossipNet}

/-- The senders are sound, a tick keeps to its links, what was persisted is
held, and what was answered is held by a linked peer. -/
structure NetInv (links : String → String → Prop) (net : GossipNet) : Prop where
  sender : ∀ a, (net.nodes a).Inv
  todo : ∀ a tick, (net.nodes a).gossip.phase = .sending tick → ∀ b ∈ tick.todo, links a b
  persisted : ∀ b, ∀ id ∈ net.persisted b, Held (net.nodes b) id
  answered : ∀ a, ∀ id ∈ (net.nodes a).answered, ∃ b, links a b ∧ Held (net.nodes b) id

theorem GossipNet.Start.inv (h : net.Start) : NetInv links net := by
  refine ⟨fun a => ?_, fun a tick hphase => ?_, fun b id hid => ?_, fun a id hid => ?_⟩
  · obtain ⟨storage, htab, hfew, hnode⟩ := h.primed a
    rw [hnode]
    exact Sender.primeGossip_inv htab hfew
  · obtain ⟨storage, -, -, hnode⟩ := h.primed a
    rw [hnode, primeGossip_fresh storage |>.1] at hphase
    cases hphase
  · rw [h.persisted b] at hid
    cases hid
  · obtain ⟨storage, -, -, hnode⟩ := h.primed a
    rw [hnode, primeGossip_fresh storage |>.2] at hid
    cases hid

theorem step_nodes_held (net : GossipNet) (a : NetAct) {b id : String} (h : Held (net.nodes b) id) :
    Held ((net.step engines a).nodes b) id := by
  unfold GossipNet.step
  dsimp only
  by_cases hb : b = a.address
  · subst hb
    rw [Function.update_self]
    exact step_held a.act h
  · rw [Function.update_of_ne hb]
    exact h

theorem GossipNet.step_inv (hfan : ∀ a, 0 ≤ (engines a).fanOut) (net : GossipNet) (a : NetAct)
    (h : NetInv links net) (hok : net.Honest links a) : NetInv links (net.step engines a) := by
  refine ⟨fun c => ?_, fun c tick hphase => ?_, fun b id hid => ?_, fun c id hid => ?_⟩
  · show Sender.Inv (Function.update net.nodes a.address _ c)
    by_cases hc : c = a.address
    · subst hc
      rw [Function.update_self]
      exact Sender.step_inv (hfan _) _ a.act (h.sender _)
    · rw [Function.update_of_ne hc]
      exact h.sender c
  · change (Function.update net.nodes a.address _ c).gossip.phase = _ at hphase
    by_cases hc : c = a.address
    · subst hc
      rw [Function.update_self] at hphase
      refine step_todo a.act (fun now peers selected hact b hb => ?_) (h.todo _) tick hphase
      unfold Honest at hok
      rw [hact] at hok
      exact hok b hb
    · rw [Function.update_of_ne hc] at hphase
      exact h.todo c tick hphase
  · change id ∈ Function.update net.persisted a.address _ b at hid
    by_cases hb : b = a.address
    · subst hb
      rw [Function.update_self] at hid
      rcases List.mem_append.1 hid with hold | hnew
      · exact step_nodes_held net a (h.persisted _ id hold)
      · show Held (Function.update net.nodes a.address _ a.address) id
        rw [Function.update_self]
        exact persistedBy_held a.act hnew
    · rw [Function.update_of_ne hb] at hid
      exact step_nodes_held net a (h.persisted b id hid)
  · change id ∈ (Function.update net.nodes a.address _ c).answered at hid
    have hold : id ∈ (net.nodes c).answered → ∃ b, links c b ∧ Held ((net.step engines a).nodes b) id := by
      intro hid
      obtain ⟨b, hlink, hheld⟩ := h.answered c id hid
      exact ⟨b, hlink, step_nodes_held net a hheld⟩
    by_cases hc : c = a.address
    · subst hc
      rw [Function.update_self] at hid
      rcases step_answered a.act hid with hid | ⟨outcome, tick, hact, h200, hphase, hbatch⟩
      · exact hold hid
      · -- the peer that has answered has persisted the batch
        unfold Honest at hok
        rw [hact] at hok
        obtain ⟨b, hb, hpersisted⟩ := hok h200 tick hphase
        refine ⟨b, h.todo _ tick hphase b (List.mem_of_mem_head? hb), ?_⟩
        exact step_nodes_held net a (h.persisted b id (hpersisted id hbatch))
    · rw [Function.update_of_ne hc] at hid
      exact hold hid

end Runs

/-- **Handed on.** In every run of any nodes, started with primed queues of at
most 1000 events, in which ticks keep to the links and a 200 comes from a peer
that has persisted the batch: an event stored at a node is queued there, or in
the batch that its tick is sending, or stored (or since pruned) at a node it is
linked to; or it is of class C and a plan has dropped it; or its emission
raised on a cycle before it was queued. -/
theorem handed_on {engines : String → GossipEngine} (hfan : ∀ a, 0 ≤ (engines a).fanOut)
    {links : String → String → Prop} {net : GossipNet} (hnet : net.Start) {acts : List NetAct}
    (hacts : Admits (GossipNet.step engines) (GossipNet.Honest links) net acts) (a : String) :
    ∀ row ∈ ((run (GossipNet.step engines) net acts).nodes a).storage.events,
      row.event.id ∈ ((run (GossipNet.step engines) net acts).nodes a).gossip.queue.pending ∨
      row.event.id ∈ ((run (GossipNet.step engines) net acts).nodes a).gossip.phase.inHand ∨
      (∃ b, links a b ∧ Held ((run (GossipNet.step engines) net acts).nodes b) row.event.id) ∨
      row.event.cls = .C ∧ row.event.id ∈ ((run (GossipNet.step engines) net acts).nodes a).dropped ∨
      row.event.id ∈ ((run (GossipNet.step engines) net acts).nodes a).stranded := by
  have hinv : NetInv links (run (GossipNet.step engines) net acts) :=
    run_invariant (GossipNet.step_inv hfan) hnet.inv hacts
  intro row hrow
  rcases (hinv.sender a).owed row hrow with hqueued | hhand | hanswered | hrest
  · exact .inl hqueued
  · exact .inr (.inl hhand)
  · exact .inr (.inr (.inl (hinv.answered a _ hanswered)))
  · exact .inr (.inr (.inr hrest))

/-! ## Two nodes -/

/-- The step deletes nothing. -/
def NetAct.keepsRows (a : NetAct) : Bool :=
  match a.act with
  | .prune .. => false
  | _ => true

theorem step_skeletons {e : GossipEngine} {s : Sender} (act : SenderAct) (hkeeps : (NetAct.mk "" act).keepsRows = true) :
    (s.step e act).storage.eventSkeletons = s.storage.eventSkeletons := by
  unfold Sender.step
  cases act with
  | persist envelope now recompute => exact persist_skeletons envelope now recompute
  | states states =>
    dsimp only
    rw [DAGStorage.replaceConsensusState_eq]
  | prune confirmedRound maxAgeSeconds keepClassA now => cases hkeeps
  | tick now peers selected => rfl
  | sent outcome => rfl
  | fanout eventId outcomes =>
    dsimp only
    rw [fanoutCritical_storage]
  | broadcast eventId outcomes =>
    dsimp only
    rw [broadcastEvent_storage]

/-- Without deletions there are no skeletons. -/
theorem run_skeletons {engines : String → GossipEngine} {net : GossipNet} {acts : List NetAct}
    (hnet : ∀ a, (net.nodes a).storage.eventSkeletons = []) (hkeeps : ∀ a ∈ acts, a.keepsRows = true) :
    ∀ a, ((run (GossipNet.step engines) net acts).nodes a).storage.eventSkeletons = [] := by
  refine run_kept (I := fun net : GossipNet => ∀ a, (net.nodes a).storage.eventSkeletons = [])
    (fun net a hkeep h c => ?_) hkeeps hnet
  show (Function.update net.nodes a.address _ c).storage.eventSkeletons = []
  by_cases hc : c = a.address
  · subst hc
    rw [Function.update_self, step_skeletons a.act hkeep]
    exact h _
  · rw [Function.update_of_ne hc]
    exact h c

/-- What a quiet node holds, its only peer holds. -/
theorem quiet_subset {engines : String → GossipEngine} (hfan : ∀ a, 0 ≤ (engines a).fanOut)
    {links : String → String → Prop} {net : GossipNet} (hnet : net.Start)
    (hempty : ∀ a, (net.nodes a).storage.eventSkeletons = []) {acts : List NetAct}
    (hacts : Admits (GossipNet.step engines) (GossipNet.Honest links) net acts) (hkeeps : ∀ a ∈ acts, a.keepsRows = true)
    {a b : String} (honly : ∀ c, links a c → c = b) (hquiet : (run (GossipNet.step engines) net acts).Quiet a)
    (hcls : ∀ row ∈ ((run (GossipNet.step engines) net acts).nodes a).storage.events, row.event.cls ≠ .C)
    (hstranded : ((run (GossipNet.step engines) net acts).nodes a).stranded = []) :
    ((run (GossipNet.step engines) net acts).nodes a).storage.ids ⊆
      ((run (GossipNet.step engines) net acts).nodes b).storage.ids := by
  have hinv : NetInv links (run (GossipNet.step engines) net acts) :=
    run_invariant (GossipNet.step_inv hfan) hnet.inv hacts
  intro id hid
  obtain ⟨row, hrow, rfl⟩ := List.mem_map.1 hid
  rcases (hinv.sender a).owed row hrow with hqueued | hhand | hanswered | hdropped | hraised
  · rw [hquiet.1] at hqueued
    cases hqueued
  · rw [hquiet.2] at hhand
    cases hhand
  · obtain ⟨c, hlink, hheld⟩ := hinv.answered a _ hanswered
    obtain rfl := honly c hlink
    refine hheld.resolve_right fun hskeleton => ?_
    rw [run_skeletons hempty hkeeps c] at hskeleton
    cases hskeleton
  · exact absurd hdropped.1 (hcls row hrow)
  · rw [hstranded] at hraised
    cases hraised

/-- **The same journal.** Two nodes that started with at most 1000 events each,
have only each other as peers, delete nothing, hold no events of class C and
have had no emission raise on a cycle have the same events in every state in
which both are quiet. -/
theorem same_journal {engines : String → GossipEngine} (hfan : ∀ a, 0 ≤ (engines a).fanOut)
    {links : String → String → Prop} {net : GossipNet} (hnet : net.Start)
    (hempty : ∀ a, (net.nodes a).storage.eventSkeletons = []) {acts : List NetAct}
    (hacts : Admits (GossipNet.step engines) (GossipNet.Honest links) net acts) (hkeeps : ∀ a ∈ acts, a.keepsRows = true)
    {a b : String} (ha : ∀ c, links a c → c = b) (hb : ∀ c, links b c → c = a)
    (hquiet : (run (GossipNet.step engines) net acts).Quiet a ∧ (run (GossipNet.step engines) net acts).Quiet b)
    (hcls : ∀ c ∈ [a, b], ∀ row ∈ ((run (GossipNet.step engines) net acts).nodes c).storage.events, row.event.cls ≠ .C)
    (hstranded : ∀ c ∈ [a, b], ((run (GossipNet.step engines) net acts).nodes c).stranded = []) (id : String) :
    id ∈ ((run (GossipNet.step engines) net acts).nodes a).storage.ids ↔
      id ∈ ((run (GossipNet.step engines) net acts).nodes b).storage.ids := by
  constructor
  · exact fun hid => quiet_subset hfan hnet hempty hacts hkeeps ha hquiet.1 (hcls a List.mem_cons_self)
      (hstranded a List.mem_cons_self) hid
  · exact fun hid => quiet_subset hfan hnet hempty hacts hkeeps hb hquiet.2
      (hcls b (List.mem_cons_of_mem a List.mem_cons_self)) (hstranded b (List.mem_cons_of_mem a List.mem_cons_self)) hid

section TwoNodes

def pairEngines : String → GossipEngine := fun a => ⟨a, 1, {}⟩

def pairLinks (a b : String) : Prop := a = "n1" ∧ b = "n2" ∨ a = "n2" ∧ b = "n1"

def emptyNet : GossipNet where
  nodes := fun _ => Sender.primeGossip {}

def passedOn : Envelope := ⟨{ Event.linked "x" "n1" [] with cls := .A }, []⟩

/-- The first node emits an event, recomputes and sends it; the second sends it back. -/
def thereAndBack : List NetAct :=
  [⟨"n1", .persist passedOn (.fin 0) (some [])⟩, ⟨"n1", .tick (.fin 1) ["n2"] ["n2"]⟩,
    ⟨"n2", .persist passedOn (.fin 2) none⟩, ⟨"n1", .sent .ok⟩, ⟨"n2", .tick (.fin 3) ["n1"] ["n1"]⟩,
    ⟨"n1", .persist passedOn (.fin 4) none⟩, ⟨"n2", .sent .ok⟩]

theorem pairEngines_fanOut (a : String) : 0 ≤ (pairEngines a).fanOut := Int.one_nonneg

theorem emptyNet_start : emptyNet.Start :=
  ⟨fun _ => ⟨{}, Tables.empty, by decide, rfl⟩, fun _ => rfl⟩

theorem thereAndBack_honest :
    Admits (GossipNet.step pairEngines) (GossipNet.Honest pairLinks) emptyNet thereAndBack := by
  have hone : ∀ b ∈ (["n2"] : List String), pairLinks "n1" b := fun b hb =>
    .inl ⟨rfl, List.mem_singleton.1 hb⟩
  have htwo : ∀ b ∈ (["n1"] : List String), pairLinks "n2" b := fun b hb =>
    .inr ⟨rfl, List.mem_singleton.1 hb⟩
  refine ⟨trivial, hone, trivial, fun _ tick hphase => ?_, htwo, trivial, fun _ tick hphase => ?_, trivial⟩
  · obtain rfl := TickPhase.sending.inj hphase
    exact ⟨"n2", rfl, fun id hid => hid⟩
  · obtain rfl := TickPhase.sending.inj hphase
    exact ⟨"n1", rfl, fun id hid => List.mem_cons_of_mem _ hid⟩

theorem handed_on_pair :
    "x" ∈ ((run (GossipNet.step pairEngines) emptyNet thereAndBack).nodes "n1").gossip.queue.pending ∨
    "x" ∈ ((run (GossipNet.step pairEngines) emptyNet thereAndBack).nodes "n1").gossip.phase.inHand ∨
    (∃ b, pairLinks "n1" b ∧ Held ((run (GossipNet.step pairEngines) emptyNet thereAndBack).nodes b) "x") ∨
    EventClass.A = .C ∧ "x" ∈ ((run (GossipNet.step pairEngines) emptyNet thereAndBack).nodes "n1").dropped ∨
    "x" ∈ ((run (GossipNet.step pairEngines) emptyNet thereAndBack).nodes "n1").stranded :=
  handed_on pairEngines_fanOut emptyNet_start thereAndBack_honest "n1" ⟨passedOn.event, .fin 0⟩
    (List.mem_singleton.2 rfl)

theorem same_journal_pair : "x" ∈ ((run (GossipNet.step pairEngines) emptyNet thereAndBack).nodes "n2").storage.ids := by
  refine (same_journal pairEngines_fanOut emptyNet_start (fun _ => rfl) thereAndBack_honest
    ?_ (a := "n1") (b := "n2") ?_ ?_ ⟨⟨rfl, rfl⟩, rfl, rfl⟩ ?_ ?_ "x").1 ?_
  · decide
  · rintro c (h | h)
    · exact h.2
    · exact absurd h.1 (by decide)
  · rintro c (h | h)
    · exact absurd h.1 (by decide)
    · exact h.2
  · decide
  · decide
  · decide

end TwoNodes
end Mdrj.L5
