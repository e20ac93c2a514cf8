import Mdrj.Core.Sorting
import Mdrj.L1Encoding.Codec
import Mdrj.L4Node.Gossip

/-!
# What a batch holds

`plan_batch` takes the envelopes by class and then by time, and decides about
each in its turn: it is dropped if nothing requires it, deferred if the batch
is full, and otherwise accepted, and then what it names as parents is
required too.

Results:
* `plan_batch_exact`: the three parts partition the input, the accepted part
  is within the budget and in order, and only class C is ever dropped.
* `no_dropped_parent_iff`: when no parent of an accepted envelope is dropped.
  The turns go by time, so a chain of class C envelopes is met from its oldest
  end, before the younger ones that require it (`older_parent_dropped`).
* `queue_drains_iff`: when a batch makes progress, and that ticks which do
  empty the queue. An envelope larger than the budget never gets into a batch
  (`oversized_never_sent`).
-/
namespace Mdrj.L4
open Mdrj.Core Mdrj.L1 Mdrj.L3

/-! ## Configuration -/

/-- mirrors mdrj/models.py:39-45 -/
structure NodeProfile where
  bwKbps : Int
  threatLevel : String

/-- mirrors mdrj/config.py:25-28 -/
structure GossipConfig where
  periodSec : Flt

/-- mirrors mdrj/config.py:31-34 -/
structure PrioritizationConfig where
  levelThresholdB : String
  maxBatchBytes : Int

/-- mirrors mdrj/prioritization.py:33-36 -/
def NodeProfile.bandwidthBudgetBytes (profile : NodeProfile) (gossip : GossipConfig) : Except PyError Int :=
  match Flt.ofInt (profile.bwKbps * 1000 / 8) with
  | none => .error .overflowError
  | some bytesPerSec =>
    match bytesPerSec.mul gossip.periodSec with
    | .nan => .error (.valueError "cannot convert float NaN to integer")
    | x => match x.trunc with
      | none => .error .overflowError
      | some n => .ok (max 1024 n)

namespace Prioritizer

/-- mirrors mdrj/prioritization.py:22-36 -/
def init (profile : NodeProfile) (gossip : GossipConfig) (config : PrioritizationConfig) :
    Except PyError Prioritizer :=
  match profile.bandwidthBudgetBytes gossip with
  | .error err => .error err
  | .ok budget => .ok {
      threatLevel := profile.threatLevel
      levelThresholdB := config.levelThresholdB
      bandwidthBudgetBytes := budget
      maxBatchBytes := config.maxBatchBytes
      bytesCost := Envelope.bytesCost }

theorem init_spec {profile : NodeProfile} {gossip : GossipConfig} {config : PrioritizationConfig}
    {p : Prioritizer} (h : init profile gossip config = .ok p) :
    1024 ≤ p.bandwidthBudgetBytes ∧ p.maxBatchBytes = config.maxBatchBytes ∧
      p.bytesCost = Envelope.bytesCost := by
  unfold init at h
  split at h
  · cases h
  · rename_i budget hbudget
    obtain rfl := Except.ok.inj h
    refine ⟨?_, rfl, rfl⟩
    unfold NodeProfile.bandwidthBudgetBytes at hbudget
    split at hbudget
    · cases hbudget
    · split at hbudget
      · cases hbudget
      · split at hbudget
        · cases hbudget
        · obtain rfl := Except.ok.inj hbudget
          exact le_max_left _ _

/-! ## Turns -/

variable (p : Prioritizer)

/-- The bytes a batch may have. -/
def limit : Int := min p.bandwidthBudgetBytes p.maxBatchBytes

/-- Whether an envelope is let through, with these ids required.
mirrors mdrj/prioritization.py:82-93 -/
def relays (required : List String) (envelope : Envelope) : Bool :=
  p.shouldRelay envelope.event.cls
    (decide (envelope.event.id ∈ required) ||
      envelope.event.parents.any (fun parent => decide (parent ∈ required)) || Node.isGenesis envelope.event)
    (Node.isGenesis envelope.event || envelope.event.cls == .B)

/-- Whether the batch has room for an envelope. -/
def fits (plan : BatchPlan) (envelope : Envelope) : Bool :=
  decide ((plan.totalBytes : Int) + p.bytesCost envelope ≤ p.limit)

/-- The ids required once a part of the batch is made. -/
def requiredWith (required : List String) (plan : BatchPlan) : List String :=
  required ++ plan.envelopes.flatMap fun envelope => envelope.event.parents

/-- One turn of the loop. -/
def turn (required : List String) (plan : BatchPlan) (envelope : Envelope) : BatchPlan :=
  if !p.relays (requiredWith required plan) envelope then
    { plan with dropped := plan.dropped ++ [envelope] }
  else if !p.fits plan envelope then { plan with deferred := plan.deferred ++ [envelope] }
  else
    { plan with
      envelopes := plan.envelopes ++ [envelope]
      totalBytes := plan.totalBytes + p.bytesCost envelope }

/-- The order of the turns. -/
def turns (envelopes : List Envelope) : List Envelope := envelopes.insertionSort comesFirst

theorem planLoop_eq (required : List String) (rest : List Envelope) : ∀ plan : BatchPlan,
    p.planLoop (requiredWith required plan) plan rest = run (p.turn required) plan rest := by
  induction rest with
  | nil => intro plan; rfl
  | cons envelope rest ih =>
    intro plan
    rw [planLoop, show run (p.turn required) plan (envelope :: rest) =
      run (p.turn required) (p.turn required plan envelope) rest from rfl, ← ih]
    unfold turn
    have hfits : min p.bandwidthBudgetBytes p.maxBatchBytes < plan.totalBytes + p.bytesCost envelope ↔
        (!p.fits plan envelope) = true := by
      simp [fits, limit]
    split
    · rename_i hdrop
      rw [if_pos (show (!p.relays (requiredWith required plan) envelope) = true from hdrop)]
      rfl
    · rename_i hdrop
      rw [if_neg (show ¬ (!p.relays (requiredWith required plan) envelope) = true from hdrop)]
      by_cases hfull : min p.bandwidthBudgetBytes p.maxBatchBytes < plan.totalBytes + p.bytesCost envelope
      · rw [if_pos hfull, if_pos (hfits.1 hfull)]
        rfl
      · rw [if_neg hfull, if_neg fun h => hfull (hfits.2 h)]
        unfold requiredWith
        simp

/-- The part of the plan that the first turns make. -/
def planned (required : List String) (pre : List Envelope) : BatchPlan := run (p.turn required) {} pre

/-- The plan is made turn by turn. -/
theorem planBatch_eq (envelopes : List Envelope) (required : List String) :
    p.planBatch envelopes required = p.planned required (turns envelopes) := by
  unfold planned
  rw [← planLoop_eq]
  unfold planBatch requiredWith
  rw [List.flatMap_nil, List.append_nil]
  rfl

/-! ## Where an envelope goes -/

section Parts
variable (required : List String)

theorem turn_envelopes (plan : BatchPlan) (envelope : Envelope) :
    (p.turn required plan envelope).envelopes =
      if p.relays (requiredWith required plan) envelope && p.fits plan envelope then
        plan.envelopes ++ [envelope]
      else plan.envelopes := by
  unfold turn
  cases p.relays (requiredWith required plan) envelope <;> cases p.fits plan envelope <;> rfl

theorem turn_dropped (plan : BatchPlan) (envelope : Envelope) :
    (p.turn required plan envelope).dropped =
      if !p.relays (requiredWith required plan) envelope then plan.dropped ++ [envelope]
      else plan.dropped := by
  unfold turn
  cases p.relays (requiredWith required plan) envelope <;> cases p.fits plan envelope <;> rfl

/-- The ids required when an envelope is examined, after these turns. -/
def requiredAt (pre : List Envelope) : List String := requiredWith required (p.planned required pre)

/-- Accepted is what is let through in its turn and finds room. -/
theorem mem_accepted {turns : List Envelope} {envelope : Envelope} :
    envelope ∈ (p.planned required turns).envelopes ↔ ∃ pre post, turns = pre ++ envelope :: post ∧
      p.relays (p.requiredAt required pre) envelope = true ∧
      p.fits (p.planned required pre) envelope = true := by
  have hmem := mem_run_collected (p.turn_envelopes required) ({} : BatchPlan) turns (a := envelope)
  simp only [List.not_mem_nil, false_or, Bool.and_eq_true] at hmem
  exact hmem

/-- What is accepted stays accepted. -/
theorem accepted_append {pre : List Envelope} (post : List Envelope) {envelope : Envelope}
    (h : envelope ∈ (p.planned required pre).envelopes) :
    envelope ∈ (p.planned required (pre ++ post)).envelopes := by
  obtain ⟨pre', post', rfl, htaken⟩ := (p.mem_accepted required).1 h
  exact (p.mem_accepted required).2 ⟨pre', post' ++ post, by simp, htaken⟩

theorem mem_dropped {turns : List Envelope} {envelope : Envelope} :
    envelope ∈ (p.planned required turns).dropped ↔ ∃ pre post, turns = pre ++ envelope :: post ∧
      p.relays (p.requiredAt required pre) envelope = false := by
  have hmem := mem_run_collected (p.turn_dropped required) ({} : BatchPlan) turns (a := envelope)
  simp only [List.not_mem_nil, false_or, Bool.not_eq_true'] at hmem
  exact hmem

/-- What is required at a turn stays required. -/
theorem mem_requiredAt {pre : List Envelope} {id : String} : id ∈ p.requiredAt required pre ↔
    id ∈ required ∨ ∃ c ∈ (p.planned required pre).envelopes, id ∈ c.event.parents := by
  unfold requiredAt requiredWith
  rw [List.mem_append, List.mem_flatMap]

end Parts

/-- What is let through: class A and B always, class C when it is a genesis
event, is required, or has a required parent. -/
theorem relays_iff (required : List String) (envelope : Envelope) : p.relays required envelope = true ↔
    envelope.event.cls ≠ .C ∨ Node.isGenesis envelope.event = true ∨ envelope.event.id ∈ required ∨
      ∃ parent ∈ envelope.event.parents, parent ∈ required := by
  unfold relays shouldRelay
  cases hgen : Node.isGenesis envelope.event with
  | true => simp
  | false =>
    cases hcls : envelope.event.cls with
    | A => simp
    | B => simp
    | C => simp

/-! ## The partition -/

theorem turn_perm (required : List String) (plan : BatchPlan) (envelope : Envelope) :
    let next := p.turn required plan envelope
    (next.envelopes ++ next.deferred ++ next.dropped).Perm
      (plan.envelopes ++ plan.deferred ++ plan.dropped ++ [envelope]) := by
  intro next
  have hmid : ∀ a b c : List Envelope, (a ++ [envelope] ++ b ++ c).Perm (a ++ b ++ c ++ [envelope]) := by
    intro a b c
    rw [List.append_assoc, List.append_assoc, List.append_assoc (a ++ b), List.append_assoc a]
    refine List.Perm.append_left a ?_
    rw [← List.append_assoc b]
    exact List.perm_append_comm
  unfold next turn
  split
  · rw [← List.append_assoc]
  · split
    · have h := hmid (plan.envelopes ++ plan.deferred) plan.dropped []
      simpa using h
    · exact hmid _ _ _

theorem planned_perm (required : List String) (turns : List Envelope) :
    let plan := p.planned required turns
    (plan.envelopes ++ plan.deferred ++ plan.dropped).Perm turns := by
  induction turns using List.reverseRecOn with
  | nil => exact List.Perm.refl _
  | append_singleton turns envelope ih =>
    unfold planned at ih ⊢
    rw [run_concat]
    exact (p.turn_perm required _ envelope).trans (ih.append_right [envelope])

theorem planned_totalBytes (required : List String) (turns : List Envelope) :
    (p.planned required turns).totalBytes = ((p.planned required turns).envelopes.map p.bytesCost).sum := by
  refine run_always (I := fun plan : BatchPlan => plan.totalBytes = (plan.envelopes.map p.bytesCost).sum)
    (fun plan envelope h => ?_) turns rfl
  unfold turn
  split
  · exact h
  · split
    · exact h
    · rw [h, List.map_append, List.sum_append, List.map_singleton, List.sum_singleton]

theorem planned_within (hlimit : 0 ≤ p.limit) (required : List String) (turns : List Envelope) :
    ((p.planned required turns).totalBytes : Int) ≤ p.limit := by
  refine run_always (I := fun plan : BatchPlan => (plan.totalBytes : Int) ≤ p.limit)
    (fun plan envelope h => ?_) turns (by simpa using hlimit)
  unfold turn
  split
  · exact h
  · split
    · exact h
    · rename_i hfits
      simpa [fits] using hfits

/-! ## The order -/

/-- The place of a class in a batch. -/
def rank : EventClass → Nat
  | .A => 0
  | .B => 1
  | .C => 2

theorem comesFirst_iff (a b : Envelope) : comesFirst a b ↔ rank a.event.cls < rank b.event.cls ∨
    rank a.event.cls = rank b.event.cls ∧ Flt.lt b.event.tsLocal a.event.tsLocal = false := by
  unfold comesFirst
  cases a.event.cls <;> cases b.event.cls <;> simp [rank]

theorem turns_by_class (envelopes : List Envelope) :
    (turns envelopes).Pairwise fun a b => rank a.event.cls ≤ rank b.event.cls := by
  refine pairwise_insertionSort_coarse (r := comesFirst)
    (s := fun a b => rank a.event.cls ≤ rank b.event.cls) (fun a b h => ?_) (fun a b h => ?_)
    (fun a b c => Nat.le_trans) envelopes
  · rcases (comesFirst_iff a b).1 h with h | h
    · exact h.le
    · exact h.1.le
  · rw [comesFirst_iff, not_or] at h
    exact Nat.le_of_not_lt h.1

theorem turns_by_time {envelopes : List Envelope} (hnan : ∀ e ∈ envelopes, e.event.tsLocal ≠ .nan) :
    (turns envelopes).Pairwise comesFirst := by
  refine pairwise_insertionSort_of (fun a ha b hb => ?_) (fun a ha b hb c hc hab hbc => ?_)
  · rw [comesFirst_iff, comesFirst_iff]
    rcases Nat.lt_trichotomy (rank a.event.cls) (rank b.event.cls) with h | h | h
    · exact .inl (.inl h)
    · cases hlt : Flt.lt b.event.tsLocal a.event.tsLocal with
      | false => exact .inl (.inr ⟨h, rfl⟩)
      | true => exact .inr (.inr ⟨h.symm, Flt.lt_asymm hlt⟩)
    · exact .inr (.inl h)
  · rw [comesFirst_iff] at hab hbc ⊢
    rcases hab with hab | ⟨hab, htab⟩
    · rcases hbc with hbc | ⟨hbc, -⟩
      · exact .inl (hab.trans hbc)
      · exact .inl (hbc ▸ hab)
    · rcases hbc with hbc | ⟨hbc, htbc⟩
      · exact .inl (hab ▸ hbc)
      · exact .inr ⟨hab.trans hbc, Flt.not_lt_trans (hnan c hc) (hnan b hb) (hnan a ha) htbc htab⟩

/-- **A batch partitions its input within budget.** The accepted, the
deferred and the dropped envelopes are the input; the accepted ones cost no
more than the budget allows, and come by class and then by local time; what is
dropped is of class C, not a genesis event, and neither it nor a parent of it
is required when it is examined. -/
theorem plan_batch_exact (profile : NodeProfile) (gossip : GossipConfig) (config : PrioritizationConfig)
    (hmax : 0 ≤ config.maxBatchBytes) (p : Prioritizer) (hp : init profile gossip config = .ok p)
    (envelopes : List Envelope) (required : List String) :
    let plan := p.planBatch envelopes required
    (plan.envelopes ++ plan.deferred ++ plan.dropped).Perm envelopes ∧
    plan.totalBytes = (plan.envelopes.map Envelope.bytesCost).sum ∧
    (plan.totalBytes : Int) ≤ min p.bandwidthBudgetBytes config.maxBatchBytes ∧
    (plan.envelopes.Pairwise fun a b => rank a.event.cls ≤ rank b.event.cls) ∧
    ((∀ e ∈ envelopes, e.event.tsLocal ≠ .nan) → plan.envelopes.Pairwise comesFirst) ∧
    ∀ e ∈ plan.dropped, e.event.cls = .C ∧ Node.isGenesis e.event = false ∧
      ∃ pre post, turns envelopes = pre ++ e :: post ∧ e.event.id ∉ p.requiredAt required pre ∧
        ∀ parent ∈ e.event.parents, parent ∉ p.requiredAt required pre := by
  obtain ⟨hbudget, hmaxEq, hcost⟩ := init_spec hp
  have hlimit : 0 ≤ p.limit := by unfold limit; omega
  intro plan
  have hplan : plan = p.planned required (turns envelopes) := p.planBatch_eq envelopes required
  clear_value plan
  subst hplan
  have hbytes := p.planned_totalBytes required (turns envelopes)
  have hle := p.planned_within hlimit required (turns envelopes)
  have hsub := collected_sublist (p.turn_envelopes required) {} rfl (turns envelopes)
  refine ⟨(p.planned_perm required _).trans (List.perm_insertionSort _ _), hcost ▸ hbytes, ?_,
    (turns_by_class envelopes).sublist hsub, fun hnan => (turns_by_time hnan).sublist hsub, ?_⟩
  · rwa [limit, hmaxEq] at hle
  · intro e he
    obtain ⟨pre, post, hsplit, hdrop⟩ := (p.mem_dropped required).1 he
    have hno : ¬ p.relays (p.requiredAt required pre) e = true := by simp [hdrop]
    rw [relays_iff, not_or, not_or, not_or] at hno
    obtain ⟨hcls, hgen, hid, hpar⟩ := hno
    exact ⟨not_not.1 hcls, by simpa using hgen, pre, post, hsplit, hid,
      fun parent hparent hmem => hpar ⟨parent, hparent, hmem⟩⟩

/-- A node with 64 kbit/s, a tick each second, and the default batch. -/
def smallNode : Prioritizer where
  bandwidthBudgetBytes := 8000
  maxBatchBytes := 32768
  bytesCost := Envelope.bytesCost

theorem smallNode_budget : NodeProfile.bandwidthBudgetBytes ⟨64, "LOW"⟩ ⟨.fin 1⟩ = .ok 8000 := by
  have hrate : Flt.ofInt (64 * 1000 / 8) = some (.fin 8000) := by decide +kernel
  have hmul : (Flt.fin 8000).mul (.fin 1) = .fin 8000 := by decide +kernel
  have htrunc : (Flt.fin 8000).trunc = some 8000 := by decide +kernel
  unfold NodeProfile.bandwidthBudgetBytes
  rw [hrate]
  dsimp only
  rw [hmul]
  dsimp only
  rw [htrunc]
  rfl

theorem smallNode_init : init ⟨64, "LOW"⟩ ⟨.fin 1⟩ ⟨"ELEV", 32768⟩ = .ok smallNode := by
  unfold init
  rw [smallNode_budget]
  rfl

/-- An envelope given by its class, time and parents. -/
def stamped (id : String) (cls : EventClass) (ts : Flt) (parents : List String) : Envelope :=
  ⟨{ Event.linked id "a" parents with cls := cls, tsLocal := ts }, []⟩

/-- A class B envelope whose parent is the younger of two class C ones. -/
def classChain : List Envelope :=
  [stamped "c1" .C (.fin 1) [], stamped "c2" .C (.fin 2) ["c1"], stamped "b" .B (.fin 3) ["c2"]]

theorem plan_batch_exact_chain :
    let plan := smallNode.planBatch classChain ["c2"]
    (plan.envelopes ++ plan.deferred ++ plan.dropped).Perm classChain ∧
      (plan.totalBytes : Int) ≤ min 8000 32768 ∧ plan.envelopes.Pairwise comesFirst := by
  have h := plan_batch_exact _ _ _ (by decide) smallNode smallNode_init classChain ["c2"]
  exact ⟨h.1, h.2.2.1, h.2.2.2.2.1 (by decide)⟩

/-! ## Parents of what is sent -/

/-- A genesis event, one of these ids, or a child of one. -/
def Tied (ids : List String) (envelope : Envelope) : Prop :=
  Node.isGenesis envelope.event = true ∨ envelope.event.id ∈ ids ∨
    ∃ parent ∈ envelope.event.parents, parent ∈ ids

theorem Tied.mono {ids ids' : List String} {envelope : Envelope} (h : Tied ids envelope)
    (hsub : ∀ x ∈ ids, x ∈ ids') : Tied ids' envelope := by
  rcases h with hgen | hid | ⟨parent, hpar, hmem⟩
  · exact .inl hgen
  · exact .inr (.inl (hsub _ hid))
  · exact .inr (.inr ⟨parent, hpar, hsub _ hmem⟩)

/-- An envelope whose turn comes after `pre` is reached from the required ids
by a chain of earlier class C envelopes that had room in the batch, each tied
to the parents of the one before it. -/
inductive Reached (required : List String) : List Envelope → Envelope → Prop
  | tied {pre : List Envelope} {e : Envelope} : Tied required e → Reached required pre e
  | next {pre mid : List Envelope} {c e : Envelope} : c.event.cls = .C → Reached required pre c →
      p.fits (p.planned required pre) c = true → Tied c.event.parents e →
      Reached required (pre ++ c :: mid) e

theorem relays_of_reached {required : List String} {turns : List Envelope} {e : Envelope}
    (h : p.Reached required turns e) : p.relays (p.requiredAt required turns) e = true := by
  induction h with
  | tied htied =>
    exact (p.relays_iff _ _).2 (.inr (htied.mono fun x hx => (p.mem_requiredAt required).2 (.inl hx)))
  | @next pre mid c e hcls _ hfits htied ih =>
    have hc : c ∈ (p.planned required (pre ++ c :: mid)).envelopes :=
      (p.mem_accepted required).2 ⟨pre, mid, rfl, ih, hfits⟩
    exact (p.relays_iff _ _).2
      (.inr (htied.mono fun x hx => (p.mem_requiredAt required).2 (.inr ⟨c, hc, hx⟩)))

/-- With the parents of all other classes required, class C is let through
only when it is reached. -/
theorem reached_of_relays {required : List String} : ∀ (n : Nat) {turns : List Envelope} {e : Envelope},
    turns.length = n → (∀ c ∈ turns, c.event.cls ≠ .C → ∀ parent ∈ c.event.parents, parent ∈ required) →
    e.event.cls = .C → p.relays (p.requiredAt required turns) e = true → p.Reached required turns e := by
  intro n
  induction n using Nat.strongRecOn with
  | ind n ih =>
    intro turns e hlen hothers hcls hrelays
    -- the id that lets `e` through was required from the start, or by an accepted envelope
    have hcause : ∀ x ∈ p.requiredAt required turns, Tied [x] e → p.Reached required turns e := by
      intro x hx htied
      have hmore : ∀ {ids : List String}, x ∈ ids → Tied ids e := fun hmem =>
        htied.mono fun y hy => by rwa [List.mem_singleton.1 hy]
      rcases (p.mem_requiredAt required).1 hx with hreq | ⟨c, hc, hpar⟩
      · exact .tied (hmore hreq)
      · obtain ⟨pre, mid, rfl, hrel, hfits⟩ := (p.mem_accepted required).1 hc
        by_cases hC : c.event.cls = .C
        · have hshort : pre.length < n := by
            rw [← hlen, List.length_append, List.length_cons]; omega
          refine .next hC (ih _ hshort rfl (fun c' hc' => ?_) hC hrel) hfits (hmore hpar)
          exact hothers c' (List.mem_append_left _ hc')
        · exact .tied (hmore (hothers c (by simp) hC x hpar))
    rcases (p.relays_iff _ _).1 hrelays with hne | hgen | hid | ⟨parent, hpar, hmem⟩
    · exact absurd hcls hne
    · exact .tied (.inl hgen)
    · exact hcause _ hid (.inr (.inl (List.mem_singleton_self _)))
    · exact hcause _ hmem (.inr (.inr ⟨parent, hpar, List.mem_singleton_self _⟩))

/-- The plan that a tick makes. -/
def tickPlan (envelopes : List Envelope) : BatchPlan :=
  p.planBatch envelopes (GossipEngine.requiredIds envelopes)

/-- No envelope that was dropped is a parent of an accepted one. -/
def KeepsParents (envelopes : List Envelope) : Prop :=
  ∀ a ∈ (p.tickPlan envelopes).envelopes, ∀ d ∈ (p.tickPlan envelopes).dropped,
    d.event.id ∉ a.event.parents

/-- Whenever a class C envelope is reached, and has room, its class C parents
that come before it are reached too. -/
def ParentsReached (required : List String) (turns : List Envelope) : Prop :=
  ∀ pre d mid a post, turns = pre ++ d :: (mid ++ a :: post) →
    d.event.cls = .C → a.event.cls = .C → d.event.id ∈ a.event.parents →
    p.Reached required (pre ++ d :: mid) a → p.fits (p.planned required (pre ++ d :: mid)) a = true →
    p.Reached required pre d

/-- A tick requires the parents of class A and B. -/
theorem mem_requiredIds_parent {envelopes : List Envelope} {c : Envelope} (hc : c ∈ envelopes)
    (hcls : c.event.cls ≠ .C) {parent : String} (hpar : parent ∈ c.event.parents) :
    parent ∈ GossipEngine.requiredIds envelopes := by
  refine List.mem_flatMap.2 ⟨c, hc, ?_⟩
  have hAB : c.event.cls = .A ∨ c.event.cls = .B := by
    cases h : c.event.cls <;> simp_all
  rw [if_pos hAB]
  exact List.mem_cons_of_mem _ hpar

/-- A parent that is dropped had its turn before the child that is sent. -/
theorem dropped_before_accepted {required : List String} {turns : List Envelope} {a d : Envelope}
    (ha : a ∈ (p.planned required turns).envelopes) (hd : d ∈ (p.planned required turns).dropped)
    (hpar : d.event.id ∈ a.event.parents) : ∃ pre mid post, turns = pre ++ d :: (mid ++ a :: post) ∧
      p.relays (p.requiredAt required (pre ++ d :: mid)) a = true ∧
      p.fits (p.planned required (pre ++ d :: mid)) a = true ∧
      ¬ p.relays (p.requiredAt required pre) d = true := by
  obtain ⟨pre₁, post₁, hsplit₁, hrel₁, hfits₁⟩ := (p.mem_accepted required).1 ha
  obtain ⟨pre₂, post₂, hsplit₂, hdrop⟩ := (p.mem_dropped required).1 hd
  have hno : ¬ p.relays (p.requiredAt required pre₂) d = true := by simp [hdrop]
  rcases List.append_eq_append_iff.1 (hsplit₁.symm.trans hsplit₂) with ⟨mid, rfl, hmid⟩ | ⟨mid, rfl, hmid⟩
  · -- `a` is met first, and requires `d`; or it is `d` itself
    cases mid with
    | nil =>
      obtain ⟨rfl, -⟩ := List.cons.inj hmid
      rw [List.append_nil] at hno
      exact absurd hrel₁ hno
    | cons c mid =>
      obtain ⟨rfl, -⟩ := List.cons.inj hmid
      have ha' : a ∈ (p.planned required (pre₁ ++ a :: mid)).envelopes :=
        (p.mem_accepted required).2 ⟨pre₁, mid, rfl, hrel₁, hfits₁⟩
      have hid := (p.mem_requiredAt required).2 (.inr ⟨a, ha', hpar⟩)
      exact absurd ((p.relays_iff _ _).2 (.inr (.inr (.inl hid)))) hno
  · cases mid with
    | nil =>
      obtain ⟨rfl, -⟩ := List.cons.inj hmid
      rw [List.append_nil] at hrel₁
      exact absurd hrel₁ hno
    | cons c mid =>
      obtain ⟨rfl, -⟩ := List.cons.inj hmid
      exact ⟨pre₂, mid, post₁, by rw [hsplit₁]; simp, hrel₁, hfits₁, hno⟩

/-- **Parents in a batch.** No parent of an accepted envelope is dropped
exactly when every class C envelope that is reached has its earlier parents
reached. -/
theorem no_dropped_parent_iff (envelopes : List Envelope) :
    p.KeepsParents envelopes ↔ p.ParentsReached (GossipEngine.requiredIds envelopes) (turns envelopes) := by
  have hothers : ∀ {l : List Envelope}, (∀ c ∈ l, c ∈ turns envelopes) → ∀ c ∈ l, c.event.cls ≠ .C →
      ∀ parent ∈ c.event.parents, parent ∈ GossipEngine.requiredIds envelopes :=
    fun hsub c hc hcls parent hpar =>
      mem_requiredIds_parent ((List.mem_insertionSort _).1 (hsub c hc)) hcls hpar
  unfold KeepsParents ParentsReached tickPlan
  rw [p.planBatch_eq]
  set required := GossipEngine.requiredIds envelopes with hrequired
  constructor
  · intro h pre d mid a post hsplit hdC haC hpar hreached hfits
    have ha : a ∈ (p.planned required (turns envelopes)).envelopes :=
      (p.mem_accepted required).2 ⟨pre ++ d :: mid, post, by simpa using hsplit, p.relays_of_reached hreached, hfits⟩
    refine p.reached_of_relays _ rfl (hothers fun c hc => ?_) hdC ?_
    · rw [hsplit]; exact List.mem_append_left _ hc
    · by_contra hdrop
      refine h a ha d ((p.mem_dropped required).2 ⟨pre, mid ++ a :: post, hsplit, ?_⟩) hpar
      exact Bool.not_eq_true _ ▸ hdrop
  · intro h a ha d hd hpar
    obtain ⟨pre, mid, post, hsplit, hrel, hfits, hno⟩ := p.dropped_before_accepted ha hd hpar
    have hdC : d.event.cls = .C := by
      by_contra hcls
      exact hno ((p.relays_iff _ _).2 (.inl hcls))
    have haC : a.event.cls = .C := by
      by_contra hcls
      have hmem : a ∈ turns envelopes := by rw [hsplit]; simp
      have hid : d.event.id ∈ p.requiredAt required pre :=
        (p.mem_requiredAt required).2 (.inl (hothers (fun _ h => h) a hmem hcls _ hpar))
      exact hno ((p.relays_iff _ _).2 (.inr (.inr (.inl hid))))
    have hearlier : ∀ c ∈ pre ++ d :: mid, c ∈ turns envelopes := by
      intro c hc
      rw [hsplit, ← List.cons_append, ← List.append_assoc]
      exact List.mem_append_left _ hc
    have hreached := p.reached_of_relays _ rfl (hothers hearlier) haC hrel
    exact hno (p.relays_of_reached (h pre d mid a post hsplit hdC haC hpar hreached hfits))

/-- The older class C envelope is examined before the younger one requires
it. -/
theorem older_parent_dropped : ¬ ∀ (profile : NodeProfile) (gossip : GossipConfig)
    (config : PrioritizationConfig) (p : Prioritizer), init profile gossip config = .ok p →
      ∀ envelopes, p.KeepsParents envelopes := by
  intro h
  have hkeeps := h _ _ _ smallNode smallNode_init classChain
  have hdropped : ¬ ∀ a ∈ (smallNode.tickPlan classChain).envelopes,
      ∀ d ∈ (smallNode.tickPlan classChain).dropped, d.event.id ∉ a.event.parents := by decide +kernel
  exact hdropped hkeeps

/-! ## Progress -/

section Progress
variable (required : List String)

theorem turn_deferred (plan : BatchPlan) (envelope : Envelope) :
    (p.turn required plan envelope).deferred =
      if p.relays (requiredWith required plan) envelope && !p.fits plan envelope then
        plan.deferred ++ [envelope]
      else plan.deferred := by
  unfold turn
  cases p.relays (requiredWith required plan) envelope <;> cases p.fits plan envelope <;> rfl

theorem mem_deferred {turns : List Envelope} {envelope : Envelope} :
    envelope ∈ (p.planned required turns).deferred ↔ ∃ pre post, turns = pre ++ envelope :: post ∧
      p.relays (p.requiredAt required pre) envelope = true ∧
      p.fits (p.planned required pre) envelope = false := by
  have hmem := mem_run_collected (p.turn_deferred required) ({} : BatchPlan) turns (a := envelope)
  simp only [List.not_mem_nil, false_or, Bool.and_eq_true, Bool.not_eq_true'] at hmem
  exact hmem

/-- Until something is accepted, nothing more is required and all the room is
left. -/
theorem planned_none {pre : List Envelope} (h : (p.planned required pre).envelopes = []) :
    p.requiredAt required pre = required ∧ (p.planned required pre).totalBytes = 0 := by
  unfold requiredAt requiredWith
  rw [p.planned_totalBytes, h]
  exact ⟨List.append_nil _, rfl⟩

/-- Let through from the start, and small enough for an empty batch. -/
def Startable (envelope : Envelope) : Prop :=
  p.relays required envelope = true ∧ (p.bytesCost envelope : Int) ≤ p.limit

theorem accepted_ne_nil_iff (turns : List Envelope) :
    (p.planned required turns).envelopes ≠ [] ↔ ∃ e ∈ turns, p.Startable required e := by
  constructor
  · intro h
    induction turns using List.reverseRecOn with
    | nil => exact absurd rfl h
    | append_singleton turns b ih =>
      by_cases hnone : (p.planned required turns).envelopes = []
      · -- `b` is the first to be accepted
        have hb : p.relays (p.requiredAt required turns) b = true ∧
            p.fits (p.planned required turns) b = true := by
          have hstep := p.turn_envelopes required (p.planned required turns) b
          unfold planned at h hnone hstep
          rw [run_concat, hstep, hnone] at h
          by_contra hno
          rw [if_neg (by simpa [requiredAt, planned] using hno)] at h
          exact h rfl
        obtain ⟨hreq, hzero⟩ := p.planned_none required hnone
        rw [hreq] at hb
        refine ⟨b, by simp, hb.1, ?_⟩
        have hfits := hb.2
        unfold fits at hfits
        rw [hzero] at hfits
        simpa using hfits
      · obtain ⟨e, he, hstart⟩ := ih hnone
        exact ⟨e, List.mem_append_left _ he, hstart⟩
  · intro h hnone
    obtain ⟨e, he, hrelays, hcost⟩ := h
    obtain ⟨pre, post, hsplit⟩ := List.append_of_mem he
    have hpre : (p.planned required pre).envelopes = [] := by
      refine List.eq_nil_iff_forall_not_mem.2 fun c hc => ?_
      have hmem := p.accepted_append required (e :: post) hc
      rw [← hsplit, hnone] at hmem
      exact List.not_mem_nil hmem
    obtain ⟨hreq, hzero⟩ := p.planned_none required hpre
    have hfits : p.fits (p.planned required pre) e = true := by
      unfold fits
      rw [hzero]
      simpa using hcost
    have hmem := (p.mem_accepted required).2 ⟨pre, post, hsplit, hreq.symm ▸ hrelays, hfits⟩
    rw [hnone] at hmem
    exact List.not_mem_nil hmem

/-- Nothing is let through from the start, or something that is fits an empty
batch. -/
def CanProgress (envelopes : List Envelope) : Prop :=
  (∀ e ∈ envelopes, p.relays required e = false) ∨ ∃ e ∈ envelopes, p.Startable required e

/-- A plan that accepts nothing defers what is let through. -/
theorem deferred_eq_nil_iff {turns : List Envelope} (hnone : (p.planned required turns).envelopes = []) :
    (p.planned required turns).deferred = [] ↔ ∀ e ∈ turns, p.relays required e = false := by
  have hpre : ∀ pre e post, turns = pre ++ e :: post → p.requiredAt required pre = required := by
    intro pre e post hsplit
    refine (p.planned_none required (List.eq_nil_iff_forall_not_mem.2 fun c hc => ?_)).1
    have hmem := p.accepted_append required (e :: post) hc
    rw [← hsplit, hnone] at hmem
    exact List.not_mem_nil hmem
  constructor
  · intro hdef e he
    obtain ⟨pre, post, hsplit⟩ := List.append_of_mem he
    by_contra hrelays
    have hlet : p.relays (p.requiredAt required pre) e = true := by
      rw [hpre pre e post hsplit]
      simpa using hrelays
    cases hfits : p.fits (p.planned required pre) e with
    | true =>
      have hmem := (p.mem_accepted required).2 ⟨pre, post, hsplit, hlet, hfits⟩
      rw [hnone] at hmem
      exact List.not_mem_nil hmem
    | false =>
      have hmem := (p.mem_deferred required).2 ⟨pre, post, hsplit, hlet, hfits⟩
      rw [hdef] at hmem
      exact List.not_mem_nil hmem
  · intro hall
    refine List.eq_nil_iff_forall_not_mem.2 fun e he => ?_
    obtain ⟨pre, post, hsplit, hlet, -⟩ := (p.mem_deferred required).1 he
    rw [hpre pre e post hsplit, hall e (by rw [hsplit]; simp)] at hlet
    cases hlet

/-- The parts of a plan make up its input. -/
theorem planBatch_length (envelopes : List Envelope) :
    (p.planBatch envelopes required).envelopes.length + (p.planBatch envelopes required).deferred.length +
      (p.planBatch envelopes required).dropped.length = envelopes.length := by
  have hlen := ((p.planned_perm required (turns envelopes)).trans
    (List.perm_insertionSort comesFirst envelopes)).length_eq
  rw [p.planBatch_eq]
  simpa only [List.length_append] using hlen

theorem progress_iff (envelopes : List Envelope) :
    ((p.planBatch envelopes required).dropped.length ≠ envelopes.length →
      (p.planBatch envelopes required).envelopes ≠ []) ↔ p.CanProgress required envelopes := by
  have hlen := p.planBatch_length required envelopes
  have hmem : ∀ e, e ∈ turns envelopes ↔ e ∈ envelopes := fun e => List.mem_insertionSort _
  have hacc := p.accepted_ne_nil_iff required (turns envelopes)
  unfold CanProgress
  simp only [hmem] at hacc
  have hplan := p.planBatch_eq envelopes required
  rw [← hacc, ← hplan]
  by_cases hnone : (p.planBatch envelopes required).envelopes = []
  · have hdef := p.deferred_eq_nil_iff required (hplan ▸ hnone)
    simp only [hmem, ← hplan] at hdef
    rw [← hdef]
    rw [hnone, List.length_nil] at hlen
    constructor
    · intro h
      refine .inl (List.length_eq_zero_iff.1 ?_)
      by_contra hpos
      exact h (by omega) hnone
    · intro h hne
      rw [h.resolve_right (not_not.2 hnone), List.length_nil] at hlen
      exact absurd (by omega) hne
  · exact ⟨fun _ => .inr hnone, fun _ _ => hnone⟩

end Progress

end Prioritizer

/-! ## Ticks -/

/-- What a tick is given: the store, the clock, the peers and the sample. -/
structure TickInput where
  storage : DAGStorage
  now : Flt
  peers : List String
  selected : List String

namespace GossipEngine
variable {e : GossipEngine}

/-- A tick and its sends, each answered with 200. -/
def answeredTick (e : GossipEngine) (g : GossipState) (input : TickInput) : GossipState :=
  run e.step g (.tick input.storage input.now input.peers input.selected ::
    input.selected.map fun _ => .sent .ok)

/-- The envelopes a tick takes from the queue. -/
def pendingEnvelopes (e : GossipEngine) (g : GossipState) (input : TickInput) : List Envelope :=
  (g.queue.collectPending input.storage ⟨some e.nodeId, some input.now⟩).2

/-- There are peers, and `random.sample` draws as many as it is asked for. -/
def Contacts (e : GossipEngine) (input : TickInput) : Prop :=
  1 ≤ e.fanOut ∧ input.peers ≠ [] ∧ (input.selected.length : Int) = min e.fanOut input.peers.length

theorem run_sent_ended (queue : GossipQueue) (tick : Tick) (stats : GossipStats) (peers : List String) :
    run e.step ⟨queue, .ended tick stats⟩ (peers.map fun _ => .sent .ok) = ⟨queue, .ended tick stats⟩ := by
  induction peers with
  | nil => rfl
  | cons peer peers ih => exact ih

/-- Sends that are all answered leave the queue as it is. -/
theorem run_sent_ok (queue : GossipQueue) : ∀ (todo : List String) (tick : Tick), tick.todo = todo →
    todo ≠ [] → tick.plan.envelopes ≠ [] → ∃ tick' stats,
      run e.step ⟨queue, .sending tick⟩ (todo.map fun _ => .sent .ok) = ⟨queue, .ended tick' stats⟩ := by
  intro todo
  induction todo with
  | nil => intro tick _ hne; exact absurd rfl hne
  | cons peer todo ih =>
    intro tick htodo _ hbatch
    have hpos : tick.sent + tick.plan.envelopes.length ≠ 0 := by
      have := List.length_pos_iff.2 hbatch
      omega
    have hstep : run e.step ⟨queue, .sending tick⟩ ((peer :: todo).map fun _ => .sent .ok) =
        run e.step (sendEnded queue tick .ok) (todo.map fun _ => .sent .ok) := rfl
    rw [hstep]
    unfold sendEnded
    dsimp only
    rw [htodo, List.tail_cons]
    cases todo with
    | nil =>
      rw [if_pos rfl]
      unfold finish
      dsimp only
      rw [if_pos rfl, if_neg hpos]
      exact ⟨_, _, rfl⟩
    | cons next todo =>
      rw [if_neg (by simp)]
      exact ih _ rfl (by simp) hbatch

/-- Between ticks. -/
def Resting (g : GossipState) : Prop := g.phase = .idle ∨ ∃ tick stats, g.phase = .ended tick stats

/-- A tick starts from rest. -/
theorem answeredTick_start {g : GossipState} (hrest : Resting g) (input : TickInput) :
    e.answeredTick g input = run e.step (e.startTick g.queue input.storage input.now input.peers
      input.selected) (input.selected.map fun _ => .sent .ok) := by
  change run e.step (e.step g (.tick input.storage input.now input.peers input.selected)) _ = _
  rcases hrest with hidle | ⟨tick, stats, hended⟩
  · rw [show e.step g (.tick input.storage input.now input.peers input.selected) = _ by
      unfold step; rw [hidle]]
  · rw [show e.step g (.tick input.storage input.now input.peers input.selected) = _ by
      unfold step; rw [hended]]

theorem Contacts.selected_ne_nil {input : TickInput} (h : e.Contacts input) : input.selected ≠ [] := by
  obtain ⟨hfan, hpeers, hsample⟩ := h
  have hpos := List.length_pos_iff.2 hpeers
  intro hnil
  rw [hnil, List.length_nil] at hsample
  omega

/-- After a tick whose sends were answered, what it deferred is queued. -/
theorem answeredTick_spec {g : GossipState} (hq : g.queue.Coherent) (hrest : Resting g) {input : TickInput}
    (hcontacts : e.Contacts input) : Resting (e.answeredTick g input) ∧
      (e.answeredTick g input).queue =
        GossipQueue.requeueEnvelopes {} (e.prioritizer.tickPlan (e.pendingEnvelopes g input)).deferred := by
  have hselected := hcontacts.selected_ne_nil
  obtain ⟨hfan, hpeers, -⟩ := hcontacts
  have hmin : 1 ≤ min e.fanOut (input.peers.length : Int) := by
    have hpos := List.length_pos_iff.2 hpeers
    omega
  have hqueue := GossipQueue.collectPending_queue hq input.storage ⟨some e.nodeId, some input.now⟩
  rw [answeredTick_start hrest]
  unfold startTick pendingEnvelopes
  dsimp only
  generalize g.queue.collectPending input.storage ⟨some e.nodeId, some input.now⟩ = collected at hqueue ⊢
  obtain ⟨queue', envelopes⟩ := collected
  dsimp only at hqueue ⊢
  subst hqueue
  change _ ∧ _ = GossipQueue.requeueEnvelopes {} (e.prioritizer.tickPlan envelopes).deferred
  split
  · rename_i hempty
    subst hempty
    rw [run_sent_ended]
    exact ⟨.inr ⟨_, _, rfl⟩, rfl⟩
  · change Resting (run e.step (if (e.prioritizer.tickPlan envelopes).envelopes = [] then _ else _) _) ∧
      (run e.step (if (e.prioritizer.tickPlan envelopes).envelopes = [] then _ else _) _).queue = _
    split
    · rw [run_sent_ended]
      exact ⟨.inr ⟨_, _, rfl⟩, rfl⟩
    · rename_i hbatch
      rw [if_neg (by omega)]
      obtain ⟨tick', stats, hended⟩ := run_sent_ok (e := e)
        (GossipQueue.requeueEnvelopes {} (e.prioritizer.tickPlan envelopes).deferred) input.selected
        { taken := g.queue.pending.filter fun eventId => (input.storage.getEnvelope eventId).isSome
          plan := e.prioritizer.tickPlan envelopes
          contacted := input.selected.length
          todo := input.selected } rfl hselected hbatch
      exact hended ▸ ⟨.inr ⟨_, _, rfl⟩, rfl⟩

/-- A tick that can make progress shortens the queue. -/
theorem answeredTick_shorter {g : GossipState} (hq : g.queue.Coherent) (hrest : Resting g)
    {input : TickInput} (hcontacts : e.Contacts input)
    (hprogress : e.prioritizer.CanProgress (requiredIds (e.pendingEnvelopes g input))
      (e.pendingEnvelopes g input)) :
    (e.answeredTick g input).queue.pending.length ≤ g.queue.pending.length - 1 := by
  rw [(answeredTick_spec hq hrest hcontacts).2]
  have hbound := WorkQueue.length_addAll_le
    ((e.prioritizer.tickPlan (e.pendingEnvelopes g input)).deferred.map fun envelope => envelope.event.id)
    ({} : GossipQueue)
  rw [List.length_map] at hbound
  have htaken : (e.pendingEnvelopes g input).length ≤ g.queue.pending.length := by
    have hids := congrArg List.length
      (g.queue.collectPending_ids input.storage ⟨some e.nodeId, some input.now⟩)
    rw [List.length_map] at hids
    exact hids.trans_le (List.length_filter_le _ _)
  have hlen := e.prioritizer.planBatch_length (requiredIds (e.pendingEnvelopes g input))
    (e.pendingEnvelopes g input)
  have hmoves := (e.prioritizer.progress_iff _ _).2 hprogress
  refine hbound.trans ?_
  change 0 + (e.prioritizer.planBatch _ _).deferred.length ≤ _
  by_cases hall : (e.prioritizer.planBatch (e.pendingEnvelopes g input)
      (requiredIds (e.pendingEnvelopes g input))).dropped.length = (e.pendingEnvelopes g input).length
  · omega
  · have := List.length_pos_iff.2 (hmoves hall)
    omega

/-- **The queue drains.** A batch that does not drop everything accepts
something exactly when nothing is let through from the start or something
that is fits an empty batch; and ticks that meet this, with their sends
answered, empty the queue within as many ticks as it has entries. -/
theorem queue_drains_iff (e : GossipEngine) :
    (∀ (envelopes : List Envelope) (required : List String), envelopes ≠ [] →
      (((e.prioritizer.planBatch envelopes required).dropped.length ≠ envelopes.length →
        (e.prioritizer.planBatch envelopes required).envelopes ≠ []) ↔
      e.prioritizer.CanProgress required envelopes)) ∧
    ∀ (inputs : List TickInput) (g : GossipState), g.queue.Coherent → Resting g →
      Admits e.answeredTick (fun g input => e.Contacts input ∧ e.prioritizer.CanProgress
        (requiredIds (e.pendingEnvelopes g input)) (e.pendingEnvelopes g input)) g inputs →
      g.queue.pending.length ≤ inputs.length → (run e.answeredTick g inputs).queue.pending = [] := by
  refine ⟨fun envelopes required _ => e.prioritizer.progress_iff required envelopes, fun inputs => ?_⟩
  induction inputs with
  | nil =>
    intro g _ _ _ hlen
    exact List.length_eq_zero_iff.1 (Nat.le_zero.1 hlen)
  | cons input inputs ih =>
    intro g hq hrest hok hlen
    obtain ⟨⟨hcontacts, hprogress⟩, hok⟩ := hok
    obtain ⟨hrest', hqueue⟩ := answeredTick_spec hq hrest hcontacts
    have hshorter := answeredTick_shorter hq hrest hcontacts hprogress
    refine ih _ ?_ hrest' hok (hshorter.trans (by rw [List.length_cons] at hlen; omega))
    rw [hqueue]
    exact empty_coherent.addAll _

/-- A node whose batches are small. -/
def tightNode : Prioritizer := { Prioritizer.smallNode with maxBatchBytes := 256 }

theorem tightNode_init : Prioritizer.init ⟨64, "LOW"⟩ ⟨.fin 1⟩ ⟨"ELEV", 256⟩ = .ok tightNode := by
  unfold Prioritizer.init
  rw [Prioritizer.smallNode_budget]
  rfl

/-- A class A event that alone exceeds the budget is not sent, now or later. -/
theorem oversized_never_sent : ¬ ∀ (profile : NodeProfile) (gossip : GossipConfig)
    (config : PrioritizationConfig) (p : Prioritizer), Prioritizer.init profile gossip config = .ok p →
      ∀ (envelopes : List Envelope) (required : List String), envelopes ≠ [] →
        (p.planBatch envelopes required).dropped.length ≠ envelopes.length →
        (p.planBatch envelopes required).envelopes ≠ [] := by
  intro h
  have hplan : (tightNode.planBatch [Prioritizer.stamped "a" .A (.fin 0) []] []).dropped.length = 0 ∧
      (tightNode.planBatch [Prioritizer.stamped "a" .A (.fin 0) []] []).envelopes.length = 0 := by
    decide +kernel
  refine h _ _ _ tightNode tightNode_init [Prioritizer.stamped "a" .A (.fin 0) []] [] (by simp) ?_ ?_
  · rw [hplan.1]; decide
  · exact List.length_eq_zero_iff.1 hplan.2

end GossipEngine
end Mdrj.L4
