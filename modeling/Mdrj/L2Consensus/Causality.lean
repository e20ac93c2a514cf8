import Mdrj.L2Consensus.RoundLaws

/-!
# Ancestry and the total order

The total order sorts by received round, timestamp and id; ancestry enters
through the received rounds alone. A cause is received no later than its
effects, so it stands before every effect that is received in another round
(`recompute_order`). Within one received round the timestamps decide, and
they are medians of what peers report: an effect may precede its cause
(`order_against_ancestry`).
-/
namespace Mdrj.L2
open Mdrj.Core Mdrj.L1 Relation

/-- The event `x` has its state before that of `y`. -/
def Before (states : List ConsensusState) (x y : String) : Prop :=
  (states.map ConsensusState.eventId).idxOf x < (states.map ConsensusState.eventId).idxOf y

/-- The timestamp an event sorts by, a missing one as `float("inf")`. -/
def orderTs (members : List String) (pathMeta : Dict String (List Hop)) (x : String) : Flt :=
  (consensusTimestamp x members (supermajorityThreshold members.length) pathMeta).getD .posInf

/-- The laws of the order of a cause and its effect in the states of a pass. -/
structure OrderLaws (G : List Event) (members : List String) (pathMeta : Dict String (List Hop))
    (states : List ConsensusState) : Prop where
  /-- Received in different rounds, the cause comes first. -/
  apart : ∀ s ∈ states, ∀ s' ∈ states, Anc G s'.eventId s.eventId →
    s.roundReceived ≠ s'.roundReceived → Before states s.eventId s'.eventId
  /-- Received in one round, or both not yet, the smaller timestamp comes
  first, and of equal ones the smaller id. -/
  tied : (∀ e ∈ G, orderTs members pathMeta e.id ≠ .nan) →
    ∀ s ∈ states, ∀ s' ∈ states, Anc G s'.eventId s.eventId → s.roundReceived = s'.roundReceived →
      (Before states s.eventId s'.eventId ↔
        Flt.lt (orderTs members pathMeta s.eventId) (orderTs members pathMeta s'.eventId) = true ∨
        orderTs members pathMeta s.eventId = orderTs members pathMeta s'.eventId ∧
          s.eventId < s'.eventId)

variable {G : List Event} {members : List String} {pathMeta : Dict String (List Hop)}
  {t : RoundTable} {states : List ConsensusState}

namespace PassOn
variable (P : PassOn G members pathMeta t states)
include P

theorem nodup : (states.map ConsensusState.eventId).Nodup :=
  P.ids_perm.nodup_iff.2 P.parentsFirst.nodup

theorem before_or {x y : String} (hx : x ∈ ids G) (hne : x ≠ y) :
    Before states x y ∨ Before states y x := by
  refine Nat.lt_or_gt_of_ne fun heq => hne ?_
  exact (List.idxOf_inj (P.ids_perm.mem_iff.2 hx)).1 heq

/-- What the order of the events respects, the order of the states does. -/
theorem rel_of_before {s : Event → Event → Prop}
    (hs : (totalOrder G (resolvedOf G members t pathMeta)).Pairwise s) {e f : Event} (he : e ∈ G)
    (hf : f ∈ G) (h : Before states e.id f.id) : s e f := by
  have hperm := totalOrder_perm G (resolvedOf G members t pathMeta)
  have hids : states.map ConsensusState.eventId =
      (totalOrder G (resolvedOf G members t pathMeta)).map Event.id := by
    rw [P.eq, List.map_map]; rfl
  have hn := P.nodup
  unfold Before at h
  rw [hids] at h hn
  exact rel_of_idxOf_lt hn hs (hperm.mem_iff.2 he) (hperm.mem_iff.2 hf) h

omit P in
/-- Of two different received rounds, where that of `x` is not the later one. -/
theorem rrLt_of_received {x y : String}
    (hmono : ∀ r', received (election G members t) t.count y = some r' →
      ∃ r ≤ r', received (election G members t) t.count x = some r)
    (hne : received (election G members t) t.count x ≠ received (election G members t) t.count y) :
    rrLt (sortKeys G members t pathMeta x).1 (sortKeys G members t pathMeta y).1 := by
  show rrLt ((received _ _ x).map Int.ofNat) ((received _ _ y).map Int.ofNat)
  cases hry : received (election G members t) t.count y with
  | none =>
    cases hrx : received (election G members t) t.count x with
    | none => rw [hrx, hry] at hne; exact absurd rfl hne
    | some r => exact trivial
  | some r' =>
    obtain ⟨r, hle, hrx⟩ := hmono r' hry
    rw [hrx, hry] at hne
    rw [hrx]
    have hrr : r ≠ r' := fun heq => hne (by rw [heq])
    show Int.ofNat r < Int.ofNat r'
    exact Int.ofNat_lt.2 (by omega)

omit P in
/-- With one received round, the timestamps and then the ids decide. -/
theorem keyOf_lt_iff {x y : String} (hxy : x ≠ y)
    (heq : received (election G members t) t.count x = received (election G members t) t.count y) :
    OrderKey.lt (keyOf (sortKeys G members t pathMeta) x) (keyOf (sortKeys G members t pathMeta) y) =
        true ↔
      Flt.lt (orderTs members pathMeta x) (orderTs members pathMeta y) = true ∨
        orderTs members pathMeta x = orderTs members pathMeta y ∧ x < y := by
  rw [OrderKey.lt_iff]
  have hrr : (sortKeys G members t pathMeta x).1 = (sortKeys G members t pathMeta y).1 :=
    congrArg (Option.map Int.ofNat) heq
  simp only [keyOf, hrr, rrLt_irrefl, hxy, Nat.lt_irrefl, false_and, or_false, false_or, true_and]
  rfl

theorem orderLaws : OrderLaws G members pathMeta states where
  apart := by
    intro s hs s' hs' hanc hne
    have hmono := P.receivedLaws.mono s hs s' hs' hanc
    obtain ⟨e, he, rfl⟩ := P.mem_iff.1 hs
    obtain ⟨f, hf, rfl⟩ := P.mem_iff.1 hs'
    change received (election G members t) t.count e.id ≠
      received (election G members t) t.count f.id at hne
    have hef : e.id ≠ f.id := fun heq => hne (by rw [heq])
    have hlt : rrLt (sortKeys G members t pathMeta e.id).1 (sortKeys G members t pathMeta f.id).1 :=
      rrLt_of_received hmono hne
    refine (P.before_or (List.mem_map_of_mem he) hef).resolve_right fun hbefore => ?_
    exact P.rel_of_before (totalOrder_received_sorted fun e he i => orderKey_resolvedOf he i) hf he
      hbefore hlt
  tied := by
    intro hnan s hs s' hs' hanc heq
    obtain ⟨e, he, rfl⟩ := P.mem_iff.1 hs
    obtain ⟨f, hf, rfl⟩ := P.mem_iff.1 hs'
    change Anc G f.id e.id at hanc
    have hef : e.id ≠ f.id := by
      intro hid
      rw [hid] at hanc
      exact P.parentsFirst.anc_irrefl f.id hanc
    have hsorted := totalOrder_pairwise P.parentsFirst.nodup
      (K := sortKeys G members t pathMeta) (fun e he i => orderKey_resolvedOf he i) hnan
    refine Iff.trans ?_ (keyOf_lt_iff (x := e.id) (y := f.id) hef heq)
    constructor
    · intro h; exact P.rel_of_before hsorted he hf h
    · intro h
      refine (P.before_or (List.mem_map_of_mem he) hef).resolve_right fun hbefore => ?_
      have hfe := P.rel_of_before hsorted hf he hbefore
      rw [OrderKey.lt_asymm hfe] at h
      cases h

end PassOn

/-- **Causes and effects in the total order.** In a pass on a list with the
parents first, a cause stands before an effect received in another round; in
one received round timestamp and id decide. -/
theorem recompute_order (hG : ParentsFirst G) (engine : ConsensusEngine)
    (membership : List MembershipEntry) (pathMeta : Dict String (List Hop)) :
    ∃ states, engine.recompute G membership pathMeta = some states ∧
      OrderLaws G (engine.normalizeMembership membership) pathMeta states := by
  obtain ⟨t, states, P, hrun⟩ := recompute_passOn hG engine membership pathMeta
  exact ⟨states, hrun, P.orderLaws⟩

/-- An outsider's event and the only member's event on top of it. -/
def answered : List Event := [Event.linked "e" "x" [], Event.linked "f" "a" ["e"]]

/-- The member says it had the first at ten and the second at five. -/
def lateCause : Dict String (List Hop) :=
  [("e", [⟨some "a", some (.fin 10)⟩]), ("f", [⟨some "a", some (.fin 5)⟩])]

theorem recompute_order_answered :
    ParentsFirst answered ∧ ∃ states,
      (ConsensusEngine.mk "a").recompute answered [⟨"a", "", "node", true⟩] lateCause = some states ∧
      OrderLaws answered ["a"] lateCause states :=
  ⟨by decide, recompute_order (by decide) ⟨"a"⟩ [⟨"a", "", "node", true⟩] lateCause⟩

/-- The effect comes first: both are received in round zero. -/
theorem order_against_ancestry :
    ParentsFirst answered ∧ Anc answered "f" "e" ∧ ∃ states,
      (ConsensusEngine.mk "a").recompute answered [⟨"a", "", "node", true⟩] lateCause = some states ∧
      states.map (·.eventId) = ["f", "e"] ∧ states.map (·.roundReceived) = [some 0, some 0] ∧
      ¬ Before states "e" "f" := by
  have hrun : ((ConsensusEngine.mk "a").recompute answered [⟨"a", "", "node", true⟩] lateCause).map
      (fun states => (states.map (·.eventId), states.map (·.roundReceived))) =
      some (["f", "e"], [some 0, some 0]) := by decide +kernel
  obtain ⟨states, hstates, hread⟩ := Option.map_eq_some_iff.1 hrun
  obtain ⟨hids, hrounds⟩ := Prod.mk.inj hread
  refine ⟨by decide, TransGen.single ⟨Event.linked "f" "a" ["e"], by simp [answered], rfl,
    List.mem_singleton.2 rfl⟩,
    states, hstates, hids, hrounds, ?_⟩
  unfold Before
  rw [hids]
  decide

end Mdrj.L2
