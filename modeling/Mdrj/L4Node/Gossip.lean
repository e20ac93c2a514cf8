import Mdrj.Core.Runs
import Mdrj.Core.WorkQueue
import Mdrj.L4Node.Peers

/-!
# The gossip queue

`GossipEngine` keeps the ids to be sent in a queue, and the set of what is
queued. A tick takes everything from the queue, plans a batch, and sends it
to a few peers one after the other; only there does it give way to other
tasks, which may queue more. What is deferred, and a batch that no peer took,
is queued again.

Results:
* `gossip_queue_exact`: in every state of every run the queue has no id twice
  and the set is the queue, and when a tick has ended, what it took and the
  store holds was answered with 200, or is queued again, or is dropped.

The clock readings, the peers of the tick, the draw of `random.sample` and
the outcomes of the sends are arguments; so are the cost of an envelope
(`bytes_cost` of its JSON) and the bandwidth budget, for which any numbers
will do.
-/
namespace Mdrj.L4
open Mdrj.Core Mdrj.L1 Mdrj.L3

/-! ## Planning a batch -/

/-- mirrors mdrj/prioritization.py:11 -/
def threatRank (level : String) (fallback : Nat) : Nat :=
  if level = "LOW" then 0 else if level = "ELEV" then 1 else if level = "HIGH" then 2 else fallback

structure Prioritizer where
  threatLevel : String := "LOW"
  levelThresholdB : String := "ELEV"
  bandwidthBudgetBytes : Int := 1024
  maxBatchBytes : Int := 1024
  bytesCost : Envelope → Nat := fun _ => 0   -- of `envelope.to_dict()`

/-- `dropped` is the count of the source; here the envelopes it counts.
mirrors mdrj/prioritization.py:14-19 -/
structure BatchPlan where
  envelopes : List Envelope := []
  totalBytes : Nat := 0
  dropped : List Envelope := []
  deferred : List Envelope := []

namespace Prioritizer

/-- mirrors mdrj/prioritization.py:38-41 -/
def thresholdAllowsB (p : Prioritizer) : Bool :=
  threatRank p.levelThresholdB 1 ≤ threatRank p.threatLevel 0

/-- mirrors mdrj/prioritization.py:43-56 -/
def shouldRelay (p : Prioritizer) (cls : EventClass) (requiredForCausality force : Bool) : Bool :=
  if force then true
  else match cls with
    | .A => true
    | .B => p.thresholdAllowsB || requiredForCausality
    | .C => requiredForCausality

/-- The order of a batch: by class, then by local time.
mirrors mdrj/prioritization.py:65-75 -/
def comesFirst (a b : Envelope) : Prop :=
  let rank : EventClass → Nat
    | .A => 0
    | .B => 1
    | .C => 2
  rank a.event.cls < rank b.event.cls ∨
    rank a.event.cls = rank b.event.cls ∧ Flt.lt b.event.tsLocal a.event.tsLocal = false

instance : DecidableRel comesFirst := fun a b => by unfold comesFirst; infer_instance

/-- The loop of `plan_batch`.
mirrors mdrj/prioritization.py:81-102 -/
def planLoop (p : Prioritizer) : List String → BatchPlan → List Envelope → BatchPlan
  | _, plan, [] => plan
  | required, plan, envelope :: rest =>
    let genesis := Node.isGenesis envelope.event
    let isRequired := decide (envelope.event.id ∈ required) ||
      envelope.event.parents.any (fun parent => decide (parent ∈ required)) || genesis
    let force := genesis || envelope.event.cls == .B
    if !p.shouldRelay envelope.event.cls isRequired force then
      p.planLoop required { plan with dropped := plan.dropped ++ [envelope] } rest
    else if min p.bandwidthBudgetBytes p.maxBatchBytes < plan.totalBytes + p.bytesCost envelope then
      p.planLoop required { plan with deferred := plan.deferred ++ [envelope] } rest
    else
      p.planLoop (required ++ envelope.event.parents)
        { plan with
          envelopes := plan.envelopes ++ [envelope]
          totalBytes := plan.totalBytes + p.bytesCost envelope } rest

/-- mirrors mdrj/prioritization.py:58-103 -/
def planBatch (p : Prioritizer) (envelopes : List Envelope) (required : List String) : BatchPlan :=
  p.planLoop required {} (envelopes.insertionSort comesFirst)

end Prioritizer

/-! ## The engine -/

abbrev GossipQueue := WorkQueue String

namespace GossipQueue

/-- mirrors mdrj/gossip.py:57-61 -/
def addPending (q : GossipQueue) (eventId : String) : GossipQueue := q.add eventId

/-- mirrors mdrj/gossip.py:62-68 -/
def requeueEnvelopes (q : GossipQueue) (envelopes : List Envelope) : GossipQueue :=
  q.addAll (envelopes.map fun envelope => envelope.event.id)

/-- The loop of `_collect_pending`: the queue is not empty when `get` is
awaited, so the tick does not give way here.
mirrors mdrj/gossip.py:88-98 -/
def collectLoop (s : DAGStorage) (hop : Hop) :
    List String → Finset String → List Envelope → GossipQueue × List Envelope
  | [], known, envelopes => (⟨[], known⟩, envelopes)
  | eventId :: rest, known, envelopes =>
    match s.getEnvelope eventId with
    | none => collectLoop s hop rest (known.erase eventId) envelopes
    | some envelope =>
      collectLoop s hop rest (known.erase eventId)
        (envelopes ++ [{ envelope with pathMeta := envelope.pathMeta ++ [hop] }])

def collectPending (q : GossipQueue) (s : DAGStorage) (hop : Hop) : GossipQueue × List Envelope :=
  collectLoop s hop q.pending q.known []

end GossipQueue

/-- How a send ends. -/
inductive SendOutcome where
  | ok          -- 200 and a JSON body
  | badBody     -- 200, but reading the body raises
  | refused     -- another status
  | failed      -- an exception
  deriving DecidableEq

def SendOutcome.is200 : SendOutcome → Bool
  | .ok => true
  | .badBody => true
  | _ => false

/-- mirrors mdrj/gossip.py:22-26 -/
structure GossipStats where
  sent : Nat
  peersContacted : Nat
  dropped : Nat

/-- A tick that has made its plan. -/
structure Tick where
  /-- ghost: the ids taken from the queue that the store holds -/
  taken : List String
  plan : BatchPlan
  contacted : Nat := 0
  todo : List String := []   -- the peers still to be sent to
  sent : Nat := 0            -- `sent_total`
  /-- ghost: the batch was answered with 200 -/
  answered : Bool := false

inductive TickPhase where
  | idle
  | sending (tick : Tick)
  | ended (tick : Tick) (stats : GossipStats)
  | raised   -- the `ValueError` of `random.sample`, which ends the loop

structure GossipEngine where
  nodeId : String
  fanOut : Int
  prioritizer : Prioritizer

structure GossipState where
  queue : GossipQueue := {}
  phase : TickPhase := .idle

namespace GossipEngine

/-- mirrors mdrj/gossip.py:105-109 -/
def requiredIds (envelopes : List Envelope) : List String :=
  envelopes.flatMap fun envelope =>
    if envelope.event.cls = .A ∨ envelope.event.cls = .B then
      envelope.event.id :: envelope.event.parents
    else []

/-- The end of a tick whose sends are over.
mirrors mdrj/gossip.py:126-130 -/
def finish (queue : GossipQueue) (tick : Tick) : GossipState where
  queue := if tick.sent = 0 then queue.requeueEnvelopes tick.plan.envelopes else queue
  phase := .ended tick ⟨tick.sent, tick.contacted, tick.plan.dropped.length⟩

/-- A tick up to its first send.
mirrors mdrj/gossip.py:100-122 -/
def startTick (e : GossipEngine) (queue : GossipQueue) (s : DAGStorage) (now : Flt)
    (peers selected : List String) : GossipState :=
  let taken := queue.pending.filter fun eventId => (s.getEnvelope eventId).isSome
  let (queue, envelopes) := queue.collectPending s ⟨some e.nodeId, some now⟩
  if envelopes = [] then ⟨queue, .ended ⟨taken, {}, 0, [], 0, false⟩ ⟨0, 0, 0⟩⟩
  else
    let plan := e.prioritizer.planBatch envelopes (requiredIds envelopes)
    let queue := queue.requeueEnvelopes plan.deferred
    let tick : Tick := { taken := taken, plan := plan }
    if plan.envelopes = [] then ⟨queue, .ended tick ⟨0, 0, plan.dropped.length⟩⟩
    else if peers = [] then
      ⟨queue.requeueEnvelopes plan.envelopes, .ended tick ⟨0, 0, plan.dropped.length⟩⟩
    else if min e.fanOut peers.length < 0 then ⟨queue, .raised⟩
    else
      let tick := { tick with contacted := selected.length, todo := selected }
      if selected = [] then finish queue tick else ⟨queue, .sending tick⟩

/-- One send of the tick ends.
mirrors mdrj/gossip.py:122-126 -/
def sendEnded (queue : GossipQueue) (tick : Tick) (outcome : SendOutcome) : GossipState :=
  let tick := { tick with
    todo := tick.todo.tail
    sent := if outcome = .ok then tick.sent + tick.plan.envelopes.length else tick.sent
    answered := tick.answered || outcome.is200 }
  if tick.todo = [] then finish queue tick else ⟨queue, .sending tick⟩

inductive Act where
  | add (eventId : String)
  | tick (s : DAGStorage) (now : Flt) (peers selected : List String)
  | sent (outcome : SendOutcome)

/-- Ticks follow one another; what does not fit the phase does not happen. -/
def step (e : GossipEngine) (g : GossipState) : Act → GossipState
  | .add eventId => { g with queue := g.queue.addPending eventId }
  | .tick s now peers selected =>
    match g.phase with
    | .idle | .ended _ _ => e.startTick g.queue s now peers selected
    | _ => g
  | .sent outcome =>
    match g.phase with
    | .sending tick => sendEnded g.queue tick outcome
    | _ => g

end GossipEngine

/-! ## What a plan and a collection keep -/

/-- The envelope is in one of the three parts of a plan. -/
def BatchPlan.Has (plan : BatchPlan) (envelope : Envelope) : Prop :=
  envelope ∈ plan.envelopes ∨ envelope ∈ plan.deferred ∨ envelope ∈ plan.dropped

theorem Prioritizer.planLoop_has (p : Prioritizer) (envelope : Envelope) :
    ∀ (rest : List Envelope) (required : List String) (plan : BatchPlan),
      (p.planLoop required plan rest).Has envelope ↔ plan.Has envelope ∨ envelope ∈ rest := by
  intro rest
  induction rest with
  | nil => intro required plan; simp [planLoop]
  | cons head rest ih =>
    intro required plan
    unfold planLoop
    dsimp only
    split
    · rw [ih]; simp only [BatchPlan.Has, List.mem_append, List.mem_cons]; tauto
    · split
      · rw [ih]; simp only [BatchPlan.Has, List.mem_append, List.mem_cons]; tauto
      · rw [ih]; simp only [BatchPlan.Has, List.mem_append, List.mem_cons]; tauto

/-- A plan loses no envelope. -/
theorem Prioritizer.planBatch_has (p : Prioritizer) (envelopes : List Envelope) (required : List String)
    (envelope : Envelope) : (p.planBatch envelopes required).Has envelope ↔ envelope ∈ envelopes := by
  unfold planBatch
  rw [p.planLoop_has, List.mem_insertionSort]
  simp [BatchPlan.Has]

namespace GossipQueue

theorem collectLoop_queue (s : DAGStorage) (hop : Hop) : ∀ (ids : List String) (known : Finset String)
    (envelopes : List Envelope),
    (collectLoop s hop ids known envelopes).1 = ⟨[], known \ ids.toFinset⟩ := by
  intro ids
  induction ids with
  | nil => intro known envelopes; simp [collectLoop]
  | cons eventId ids ih =>
    intro known envelopes
    have hset : known.erase eventId \ ids.toFinset = known \ (eventId :: ids).toFinset := by
      rw [List.toFinset_cons, Finset.sdiff_insert, Finset.erase_sdiff_comm]
    unfold collectLoop
    split
    · rw [ih, hset]
    · rw [ih, hset]

theorem collectLoop_ids (s : DAGStorage) (hop : Hop) : ∀ (ids : List String) (known : Finset String)
    (envelopes : List Envelope),
    ((collectLoop s hop ids known envelopes).2.map fun envelope => envelope.event.id) =
      (envelopes.map fun envelope => envelope.event.id) ++
        ids.filter fun eventId => (s.getEnvelope eventId).isSome := by
  intro ids
  induction ids with
  | nil => intro known envelopes; simp [collectLoop]
  | cons eventId ids ih =>
    intro known envelopes
    unfold collectLoop
    split
    · rename_i hnone
      rw [ih, List.filter_cons_of_neg (by simp [hnone])]
    · rename_i envelope hsome
      rw [ih, List.filter_cons_of_pos (by simp [hsome])]
      simp [DAGStorage.getEnvelope_id hsome]

/-- A collection empties the queue and its set. -/
theorem collectPending_queue {q : GossipQueue} (h : q.Coherent) (s : DAGStorage) (hop : Hop) :
    (q.collectPending s hop).1 = {} := by
  unfold collectPending
  rw [collectLoop_queue, h.known, Finset.sdiff_self]

theorem collectPending_ids (q : GossipQueue) (s : DAGStorage) (hop : Hop) :
    ((q.collectPending s hop).2.map fun envelope => envelope.event.id) =
      q.pending.filter fun eventId => (s.getEnvelope eventId).isSome := by
  unfold collectPending
  rw [collectLoop_ids]
  rfl

end GossipQueue

/-! ## Runs -/

namespace GossipEngine

/-- Where an id that a tick took may be: in the batch, in the queue, or
dropped. -/
def Placed (queue : GossipQueue) (tick : Tick) (eventId : String) : Prop :=
  eventId ∈ tick.plan.envelopes.map (fun envelope => envelope.event.id) ∨ eventId ∈ queue.pending ∨
    eventId ∈ tick.plan.dropped.map fun envelope => envelope.event.id

/-- What the claim of an ended tick is: answered with 200, queued again, or
dropped. -/
def Accounted (queue : GossipQueue) (tick : Tick) (eventId : String) : Prop :=
  tick.answered = true ∧ eventId ∈ tick.plan.envelopes.map (fun envelope => envelope.event.id) ∨
    eventId ∈ queue.pending ∨ eventId ∈ tick.plan.dropped.map fun envelope => envelope.event.id

/-- The invariant of a phase. -/
def PhaseInv (queue : GossipQueue) : TickPhase → Prop
  | .idle => True
  | .sending tick => (0 < tick.sent → tick.answered = true) ∧ ∀ id ∈ tick.taken, Placed queue tick id
  | .ended tick stats => stats.dropped = tick.plan.dropped.length ∧ ∀ id ∈ tick.taken, Accounted queue tick id
  | .raised => True

structure Inv (g : GossipState) : Prop where
  coherent : g.queue.Coherent
  phase : PhaseInv g.queue g.phase

/-- A longer queue keeps the invariant of a phase. -/
theorem PhaseInv.mono {queue queue' : GossipQueue} {phase : TickPhase} (h : PhaseInv queue phase)
    (hsub : ∀ id ∈ queue.pending, id ∈ queue'.pending) : PhaseInv queue' phase := by
  cases phase with
  | idle => trivial
  | sending tick => exact ⟨h.1, fun id hid => (h.2 id hid).imp_right fun hq => hq.imp_left (hsub id)⟩
  | ended tick stats => exact ⟨h.1, fun id hid => (h.2 id hid).imp_right fun hq => hq.imp_left (hsub id)⟩
  | raised => trivial

theorem finish_inv {queue : GossipQueue} {tick : Tick} (hq : queue.Coherent)
    (hsent : 0 < tick.sent → tick.answered = true) (hplaced : ∀ id ∈ tick.taken, Placed queue tick id) :
    Inv (finish queue tick) := by
  unfold finish
  split
  · -- nobody took the batch: all of it is queued again
    refine ⟨hq.addAll _, rfl, fun id hid => ?_⟩
    have hmem := hq.mem_addAll (tick.plan.envelopes.map fun envelope => envelope.event.id) (b := id)
    rcases hplaced id hid with hb | hp | hd
    · exact .inr (.inl (hmem.2 (.inl hb)))
    · exact .inr (.inl (hmem.2 (.inr hp)))
    · exact .inr (.inr hd)
  · rename_i hpos
    refine ⟨hq, rfl, fun id hid => ?_⟩
    exact (hplaced id hid).imp_left fun hb => ⟨hsent (Nat.pos_of_ne_zero hpos), hb⟩

theorem empty_coherent : ({} : GossipQueue).Coherent := ⟨List.nodup_nil, rfl⟩

/-- After the plan, everything taken has its place. -/
theorem planned {e : GossipEngine} {envelopes : List Envelope} {plan : BatchPlan}
    (hplan : plan = e.prioritizer.planBatch envelopes (requiredIds envelopes)) {tick : Tick}
    (htick : tick.plan = plan) {id : String} (hid : id ∈ envelopes.map fun envelope => envelope.event.id) :
    Placed (GossipQueue.requeueEnvelopes {} plan.deferred) tick id := by
  obtain ⟨envelope, hmem, rfl⟩ := List.mem_map.1 hid
  have hhas := (e.prioritizer.planBatch_has envelopes (requiredIds envelopes) envelope).2 hmem
  rw [← hplan] at hhas
  unfold Placed
  rw [htick]
  rcases hhas with hb | hd | hx
  · exact .inl (List.mem_map.2 ⟨envelope, hb, rfl⟩)
  · refine .inr (.inl ((empty_coherent.mem_addAll _).2 (.inl ?_)))
    exact List.mem_map.2 ⟨envelope, hd, rfl⟩
  · exact .inr (.inr (List.mem_map.2 ⟨envelope, hx, rfl⟩))

theorem startTick_inv (e : GossipEngine) {queue : GossipQueue} (h : queue.Coherent) (s : DAGStorage)
    (now : Flt) (peers selected : List String) : Inv (e.startTick queue s now peers selected) := by
  have hqueue := GossipQueue.collectPending_queue h s ⟨some e.nodeId, some now⟩
  have hids := queue.collectPending_ids s ⟨some e.nodeId, some now⟩
  unfold startTick
  dsimp only
  generalize queue.collectPending s ⟨some e.nodeId, some now⟩ = collected at hqueue hids ⊢
  obtain ⟨queue', envelopes⟩ := collected
  dsimp only at hqueue hids ⊢
  subst hqueue
  rw [← hids]
  generalize hplan : e.prioritizer.planBatch envelopes (requiredIds envelopes) = plan
  have hq : (GossipQueue.requeueEnvelopes {} plan.deferred).Coherent := empty_coherent.addAll _
  have hplaced : ∀ tick : Tick, tick.plan = plan →
      ∀ id ∈ envelopes.map (fun envelope => envelope.event.id),
        Placed (GossipQueue.requeueEnvelopes {} plan.deferred) tick id :=
    fun tick htick id hid => planned hplan.symm htick hid
  split
  · rename_i hempty
    refine ⟨empty_coherent, rfl, fun id hid => ?_⟩
    rw [hempty] at hid
    exact absurd hid List.not_mem_nil
  · split
    · -- nothing was accepted, so the batch holds none of what was taken
      rename_i hnone
      refine ⟨hq, rfl, fun id hid => ?_⟩
      refine (hplaced _ rfl id hid).imp_left fun hb => ?_
      rw [hnone] at hb
      exact absurd hb List.not_mem_nil
    · split
      · change Inv (finish _ { taken := _, plan := plan })
        exact finish_inv hq (fun hpos => absurd hpos (by simp)) (hplaced _ rfl)
      · split
        · exact ⟨hq, trivial⟩
        · split
          · exact finish_inv hq (fun hpos => absurd hpos (by simp)) (hplaced _ rfl)
          · exact ⟨hq, fun hpos => absurd hpos (by simp), hplaced _ rfl⟩

theorem sendEnded_inv {queue : GossipQueue} {tick : Tick} (hq : queue.Coherent)
    (h : PhaseInv queue (.sending tick)) (outcome : SendOutcome) : Inv (sendEnded queue tick outcome) := by
  have hsent : 0 < (if outcome = .ok then tick.sent + tick.plan.envelopes.length else tick.sent) →
      (tick.answered || outcome.is200) = true := by
    split
    · rename_i hok
      intro _
      simp [hok, SendOutcome.is200]
    · intro hpos
      simp [h.1 hpos]
  unfold sendEnded
  dsimp only
  split
  · exact finish_inv hq hsent h.2
  · exact ⟨hq, hsent, h.2⟩

theorem step_inv (e : GossipEngine) {g : GossipState} (h : Inv g) (act : Act) : Inv (e.step g act) := by
  cases act with
  | add eventId =>
    refine ⟨h.coherent.add eventId, h.phase.mono fun id hid => ?_⟩
    rw [← h.coherent.mem_known] at hid
    exact (h.coherent.add eventId).mem_known.1 (WorkQueue.mem_known_add.2 (.inr hid))
  | tick s now peers selected =>
    unfold step
    dsimp only
    split
    · exact startTick_inv e h.coherent s now peers selected
    · exact startTick_inv e h.coherent s now peers selected
    · exact h
  | sent outcome =>
    unfold step
    dsimp only
    split
    · rename_i tick hphase
      have hp := h.phase
      rw [hphase] at hp
      exact sendEnded_inv h.coherent hp outcome
    · exact h

/-- A tick raises only for a negative `fan_out`. -/
theorem step_raised {e : GossipEngine} (hfan : 0 ≤ e.fanOut) {g : GossipState} (h : g.phase ≠ .raised)
    (act : Act) : (e.step g act).phase ≠ .raised := by
  have hfinish : ∀ queue tick, (finish queue tick).phase ≠ .raised := by
    intro queue tick hr
    cases hr
  have hstart : ∀ s now peers selected, (e.startTick g.queue s now peers selected).phase ≠ .raised := by
    intro s now peers selected
    unfold startTick
    dsimp only
    have hmin : ¬ min e.fanOut peers.length < 0 := by omega
    rw [if_neg hmin]
    split
    · simp
    · split
      · simp
      · split
        · simp
        · split
          · exact hfinish _ _
          · simp
  cases act with
  | add eventId => exact h
  | tick s now peers selected =>
    unfold step
    dsimp only
    split
    · exact hstart s now peers selected
    · exact hstart s now peers selected
    · exact h
  | sent outcome =>
    unfold step
    dsimp only
    split
    · unfold sendEnded
      dsimp only
      split
      · exact hfinish _ _
      · simp
    · exact h

/-- **The gossip queue.** In every state of every run of ticks, sends and
`add_pending` calls, from an empty queue, no id is queued twice and the set
of known ids is the queue; when a tick has ended, every id it took that the
store held was answered with 200 in that tick, or is queued, or is one of the
envelopes counted as dropped. A tick never raises when `fan_out` is not
negative. -/
theorem gossip_queue_exact (e : GossipEngine) (acts : List Act) :
    let g := run e.step {} acts
    g.queue.pending.Nodup ∧ g.queue.pending.toFinset = g.queue.known ∧
    (∀ tick stats, g.phase = .ended tick stats → stats.dropped = tick.plan.dropped.length ∧
      ∀ id ∈ tick.taken, Accounted g.queue tick id) ∧
    (0 ≤ e.fanOut → g.phase ≠ .raised) := by
  intro g
  have hinv : Inv g :=
    run_always (I := Inv) (fun _ act h => e.step_inv h act) acts ⟨empty_coherent, trivial⟩
  refine ⟨hinv.coherent.nodup, hinv.coherent.known, ?_, ?_⟩
  · intro tick stats hphase
    have hp := hinv.phase
    rw [hphase] at hp
    exact hp
  · intro hfan
    exact run_always (I := fun g : GossipState => g.phase ≠ .raised)
      (fun _ act h => step_raised hfan h act) acts (by simp)

end GossipEngine

/-! ## Announcing the history -/

/-- A node with its store, its peers and, once it runs, its queue. -/
structure GossipNode where
  storage : DAGStorage
  book : PeerBook
  gossip : Option GossipQueue

namespace GossipNode

/-- mirrors mdrj/node.py:400-449 -/
def registerPeer (n : GossipNode) (r : PeerBook.Registration) (now : Flt) : GossipNode :=
  match n.book.registerPeer r now with
  | (book, none) => { n with book := book }
  | (book, some peer) =>
    { n with
      book := book
      gossip := n.gossip.map fun q =>
        if peer.approvalStatus = .approved then
          (n.storage.listEvents 256).foldl (fun q event => q.addPending event.id) q
        else q }

/-- mirrors mdrj/node.py:451-457 -/
def approvePeer (n : GossipNode) (address : String) : GossipNode :=
  { n with book := n.book.approvePeer address }

/-- The calls that make a peer active. -/
inductive Activation where
  | register (r : PeerBook.Registration) (now : Flt)
  | approve (address : String)

def call (n : GossipNode) : Activation → GossipNode
  | .register r now => n.registerPeer r now
  | .approve address => n.approvePeer address

/-- Some peer is active that was not. -/
def Enters (n n' : GossipNode) : Prop := ∃ a, a ∉ n.book.listPeers ∧ a ∈ n'.book.listPeers

/-- Every stored id is in the pending set of the queue. -/
def Announced (n : GossipNode) : Prop := ∀ q, n.gossip = some q → ∀ id ∈ n.storage.ids, id ∈ q.known

/-- Which calls make a peer active: a registration that is approved, of an
address that is not active; an approval that finds a row to let in. -/
def Activates (n : GossipNode) : Activation → Prop
  | .register r _ => normalizeApprovalStatus r.status = .approved ∧ r.address ∉ n.book.listPeers
  | .approve address => ∃ a row, a ∉ n.book.listPeers ∧ n.book.table.get a = some row ∧
      row.enabled = true ∧ row.isSelf = false ∧ (a = address ∨ row.approvalStatus = .approved)

/-- What is pending once the call has announced what it announces. -/
def Reaches (n : GossipNode) (q : GossipQueue) : Activation → Prop
  | .register _ _ => ∀ id ∈ n.storage.ids,
      id ∈ q.known ∨ id ∈ (n.storage.listEvents 256).map Event.id
  | .approve _ => ∀ id ∈ n.storage.ids, id ∈ q.known

theorem mem_listPeers_approvePeer (b : PeerBook) (address a : String) :
    a ∈ (b.approvePeer address).listPeers ↔ ∃ row, b.table.get a = some row ∧ row.enabled = true ∧
      row.isSelf = false ∧ (a = address ∨ row.approvalStatus = .approved) := by
  unfold PeerBook.approvePeer PeerBook.change
  rw [PeerBook.mem_reload]
  dsimp only
  by_cases ha : a = address
  · subst ha
    rw [PeerBook.updatePeer_get_self]
    constructor
    · intro h
      obtain ⟨_, hrow, hon, -, hself⟩ := h
      obtain ⟨row, hget, rfl⟩ := Option.map_eq_some_iff.1 hrow
      exact ⟨row, hget, hon, by simpa using hself, .inl rfl⟩
    · intro h
      obtain ⟨row, hget, hon, hself, -⟩ := h
      refine ⟨_, Option.map_eq_some_iff.2 ⟨row, hget, rfl⟩, hon, ?_, by simpa using hself⟩
      rw [PeerRow.change_approvalStatus rfl]
      decide +kernel
  · rw [PeerBook.updatePeer_get_ne _ _ fun e => ha e.symm]
    simp only [ha, false_or, PeerRow.Active]
    exact exists_congr fun row => and_congr_right fun _ => and_congr_right fun _ => and_comm

/-- What a registration leaves of the peers and of the queue. -/
theorem registerPeer_spec (n : GossipNode) (r : PeerBook.Registration) (now : Flt) :
    (n.registerPeer r now).book = (n.book.registerPeer r now).1 ∧
    (n.registerPeer r now).storage = n.storage ∧
    (n.registerPeer r now).gossip = n.gossip.map fun q =>
      if normalizeApprovalStatus r.status = .approved then
        q.addAll ((n.storage.listEvents 256).map Event.id)
      else q := by
  obtain ⟨table, row, record, -, -, -, -, -, hstatus, heq⟩ := n.book.registerPeer_eq r now
  unfold registerPeer
  rw [heq]
  dsimp only
  refine ⟨rfl, rfl, ?_⟩
  rw [hstatus]
  congr 1
  funext q
  split
  · rw [WorkQueue.addAll, List.foldl_map]
    rfl
  · rfl

theorem enters_iff (n : GossipNode) (c : Activation) : n.Enters (n.call c) ↔ n.Activates c := by
  unfold Enters
  cases c with
  | register r now =>
    simp only [call, (n.registerPeer_spec r now).1, PeerBook.mem_listPeers_registerPeer, Activates]
    constructor
    · intro h
      obtain ⟨a, hout, ⟨happr, rfl⟩ | hin⟩ := h
      · exact ⟨happr, hout⟩
      · exact absurd hin hout
    · intro h
      exact ⟨r.address, h.2, .inl ⟨h.1, rfl⟩⟩
  | approve address =>
    simp only [call, approvePeer, mem_listPeers_approvePeer, Activates]
    constructor
    · intro h
      obtain ⟨a, hout, row, hrow⟩ := h
      exact ⟨a, row, hout, hrow⟩
    · intro h
      obtain ⟨a, row, hout, hrow⟩ := h
      exact ⟨a, hout, row, hrow⟩

/-- A call that makes a peer active announces the first 256 events when it is
a registration, and nothing when it is an approval. -/
theorem announced_iff {n : GossipNode} {q : GossipQueue} (hq : n.gossip = some q) {c : Activation}
    (hc : n.Activates c) : (n.call c).Announced ↔ n.Reaches q c := by
  unfold Announced
  cases c with
  | register r now =>
    obtain ⟨-, hstorage, hgossip⟩ := n.registerPeer_spec r now
    rw [hq, Option.map_some, if_pos hc.1] at hgossip
    simp only [call, hstorage, hgossip, Option.some.injEq, forall_eq', WorkQueue.mem_known_addAll, Reaches]
    exact forall_congr' fun id => imp_congr_right fun _ => or_comm
  | approve address =>
    simp only [call, approvePeer, hq, Option.some.injEq, forall_eq', Reaches]

/-- **Announcing the history.** On a running node, a call that makes a peer
active leaves every stored id pending exactly when each of them was pending
before or, for a registration, is among the 256 oldest. -/
theorem history_announced_iff (n : GossipNode) (q : GossipQueue) (hq : n.gossip = some q)
    (c : Activation) :
    (n.Enters (n.call c) → (n.call c).Announced) ↔ (n.Activates c → n.Reaches q c) := by
  rw [enters_iff]
  exact forall_congr' fun hc => announced_iff hq hc

/-- A running node with one event, which is not pending, and a discovered
peer. -/
def oneEvent : GossipNode where
  storage := { events := [⟨Event.linked "e1" "n1" [], .fin 0⟩] }
  book := (PeerBook.init { nodeId := "n1" } .empty (.fin 0)).step
    (.discovered "10.0.0.2:9000" "n2" "mdns" (.fin 1))
  gossip := some {}

theorem approved_peer_misses_history : ¬ ∀ (n : GossipNode) (q : GossipQueue), n.gossip = some q →
    ∀ c, n.Enters (n.call c) → (n.call c).Announced := by
  intro h
  have hall := h oneEvent {} rfl (.approve "10.0.0.2:9000")
    ⟨"10.0.0.2:9000", by decide +kernel, by decide +kernel⟩ {} rfl "e1" (by decide +kernel)
  exact absurd hall (by decide +kernel)

/-- Registering the peer by hand announces the event. -/
theorem history_announced_register :
    oneEvent.Enters (oneEvent.call (.register { address := "10.0.0.3:9000" } (.fin 2))) ∧
      (oneEvent.call (.register { address := "10.0.0.3:9000" } (.fin 2))).Announced := by
  have henters : oneEvent.Enters (oneEvent.call (.register { address := "10.0.0.3:9000" } (.fin 2))) :=
    ⟨"10.0.0.3:9000", by decide +kernel, by decide +kernel⟩
  refine ⟨henters, (history_announced_iff oneEvent {} rfl _).2 (fun _ => ?_) henters⟩
  simp only [Reaches]
  decide +kernel

end GossipNode
end Mdrj.L4
