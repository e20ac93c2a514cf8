import Mdrj.L2Consensus.Finality

/-!
# What the states of a pass say about each other

A pass on a list with the parents first, forks or not, returns states whose
fields hang together:

* `recompute_rounds`: rounds grow by at most one over the parents, an author
  has one witness in a round, its first event there, and an event above a
  round descends from a supermajority of the round's witnesses.
* `recompute_fame`: two rounds above, every witness is decided; before that
  only the next round can have decided it.
* `recompute_received`: a received round has the supermajority it is given
  for, and causes are received no later than effects.
-/
namespace Mdrj.L2
open Mdrj.Core Mdrj.L1 Relation

/-! ## Reading the states -/

/-- The round the states give to an event id. -/
def roundOf (states : List ConsensusState) (x : String) : Option Nat :=
  (lookupState (some states) x).map ConsensusState.round

/-- `w` is a witness of `c` in round `k`. -/
structure IsWitness (states : List ConsensusState) (k : Nat) (c : String) (w : ConsensusState) :
    Prop where
  mem : w ∈ states
  flag : w.isWitness = true
  creator : w.creator = c
  round : w.round = k

/-- Round `k` has a witness whose fame is decided. -/
def SomeDecided (states : List ConsensusState) (k : Nat) : Prop :=
  ∃ c w, IsWitness states k c w ∧ w.fameDecided = true

/-- The states of a pass over `G`, with the table behind them. -/
structure PassOn (G : List Event) (members : List String) (pathMeta : Dict String (List Hop))
    (t : RoundTable) (states : List ConsensusState) : Prop where
  parentsFirst : ParentsFirst G
  table : ListInv G members G t
  eq : states = (totalOrder G (resolvedOf G members t pathMeta)).map (stateOf G members t pathMeta)

variable {G : List Event} {members : List String} {pathMeta : Dict String (List Hop)}
  {t : RoundTable} {states : List ConsensusState}

theorem recompute_passOn (hG : ParentsFirst G) (engine : ConsensusEngine)
    (membership : List MembershipEntry) (pathMeta : Dict String (List Hop)) :
    ∃ t states, PassOn G (engine.normalizeMembership membership) pathMeta t states ∧
      engine.recompute G membership pathMeta = some states := by
  obtain ⟨t, h, hrun⟩ := recompute_listed hG engine membership pathMeta
  exact ⟨t, _, ⟨hG, h, rfl⟩, hrun⟩

namespace PassOn
variable (P : PassOn G members pathMeta t states)
include P

theorem mem_iff {s : ConsensusState} :
    s ∈ states ↔ ∃ e ∈ G, stateOf G members t pathMeta e = s := by
  rw [P.eq, List.mem_map]
  refine exists_congr fun e => and_congr_left fun _ => ?_
  exact (totalOrder_perm G _).mem_iff

theorem ids_perm : (states.map ConsensusState.eventId).Perm (ids G) := by
  rw [P.eq, List.map_map]
  exact (totalOrder_perm G (resolvedOf G members t pathMeta)).map Event.id

theorem roundOf_iff {x : String} {r : Nat} :
    roundOf states x = some r ↔ x ∈ ids G ∧ t.round x = r := by
  unfold roundOf
  rw [Option.map_eq_some_iff, P.eq]
  constructor
  · rintro ⟨s, hs, rfl⟩
    obtain ⟨e, he, rfl, rfl⟩ :=
      (lookupState_map P.parentsFirst.nodup (totalOrder_perm _ _) pathMeta).1 hs
    exact ⟨List.mem_map_of_mem he, rfl⟩
  · rintro ⟨hx, rfl⟩
    obtain ⟨e, he, rfl⟩ := List.mem_map.1 hx
    exact ⟨_, (lookupState_map P.parentsFirst.nodup (totalOrder_perm _ _) pathMeta).2
      ⟨e, he, rfl, rfl⟩, rfl⟩

theorem flag_iff {e : Event} (he : e ∈ G) : (stateOf G members t pathMeta e).isWitness = true ↔
    firstAt G t.round (t.round e.id) e.author = some e.id := by
  show (Dict.get t.witnessFlags e.id).getD false = true ↔ _
  rw [P.table.flags e he, Option.getD_some, decide_eq_true_eq]

/-- The witnesses of the states are those of the table. -/
theorem isWitness_iff {k : Nat} {c : String} {w : ConsensusState} : IsWitness states k c w ↔
    ∃ e ∈ G, stateOf G members t pathMeta e = w ∧ firstAt G t.round k c = some e.id := by
  constructor
  · rintro ⟨hmem, hflag, rfl, rfl⟩
    obtain ⟨e, he, rfl⟩ := P.mem_iff.1 hmem
    exact ⟨e, he, rfl, (P.flag_iff he).1 hflag⟩
  · rintro ⟨e, he, rfl, hfirst⟩
    obtain ⟨⟨e', he', hid, hauthor⟩, hround⟩ := firstAt_some hfirst
    obtain rfl := eq_of_id P.parentsFirst.nodup he' he hid
    refine ⟨P.mem_iff.2 ⟨e', he', rfl⟩, (P.flag_iff he').2 ?_, hauthor, hround⟩
    rw [hround, hauthor]
    exact hfirst

theorem isWitness_of_wit {k : Nat} {c x : String} (h : (election G members t).wit k c = some x) :
    ∃ w, IsWitness states k c w ∧ w.eventId = x := by
  have hfirst : firstAt G t.round k c = some x := (P.table.wits k c).symm.trans h
  obtain ⟨⟨e, he, rfl, -⟩, -⟩ := firstAt_some hfirst
  exact ⟨_, P.isWitness_iff.2 ⟨e, he, rfl, hfirst⟩, rfl⟩

theorem wit_of_isWitness {k : Nat} {c : String} {w : ConsensusState} (h : IsWitness states k c w) :
    (election G members t).wit k c = some w.eventId := by
  obtain ⟨e, -, rfl, hfirst⟩ := P.isWitness_iff.1 h
  exact (P.table.wits k c).trans hfirst

/-- A witness's state carries the election's record of it. -/
theorem fame_eq {k : Nat} {c : String} {w : ConsensusState} (h : IsWitness states k c w) :
    w.fameDecided = (fameRecord (election G members t) t.count k w.eventId).decided ∧
      w.isFamousWitness = (fameRecord (election G members t) t.count k w.eventId).famous ∧
      w.fameDecisionKind = (fameRecord (election G members t) t.count k w.eventId).decisionKind ∧
      w.fameDecisionRound =
        (fameRecord (election G members t) t.count k w.eventId).decisionRound := by
  have hwit := P.wit_of_isWitness h
  have hround := h.round
  obtain ⟨e, he, rfl⟩ := P.mem_iff.1 h.mem
  have hrec : fameOf (fameTable G members t) (t.round e.id) e.id =
      fameRecord (election G members t) t.count k e.id := by
    change t.round e.id = k at hround
    rw [hround, fameOf_get G members (P.table.stacked P.parentsFirst), if_pos ⟨c, hwit⟩]
  exact ⟨congrArg FameDecision.decided hrec, congrArg FameDecision.famous hrec,
    congrArg FameDecision.decisionKind hrec, congrArg FameDecision.decisionRound hrec⟩

/-- Listed parents and the rest: the greatest round of a parent. -/
theorem isBase {e : Event} (he : e ∈ G) :
    IsBase G t.round e.id ((e.parents.filterMap (roundOf states)).foldl max 0) :=
  isBase_foldl P.parentsFirst.nodup he fun _ _ _ => P.roundOf_iff

theorem find?_first (k : Nat) (c : String) :
    (G.find? fun e => e.author = c ∧ roundOf states e.id = some k).map Event.id =
      firstAt G t.round k c := by
  unfold firstAt
  rw [List.find?_congr fun e he => ?_]
  have hiff : roundOf states e.id = some k ↔ t.round e.id = k := by
    rw [P.roundOf_iff, and_iff_right (List.mem_map_of_mem he)]
  simp only [hiff]

end PassOn

/-! ## Rounds -/

/-- The laws of rounds and witnesses among the states of the events `G`. -/
structure RoundLaws (G : List Event) (members : List String) (states : List ConsensusState) :
    Prop where
  /-- Every event has one state. -/
  listed : (states.map ConsensusState.eventId).Perm (ids G)
  /-- The round is the greatest of the listed parents' (zero without one) or
  one more. -/
  step : ∀ e ∈ G, ∃ r, roundOf states e.id = some r ∧
    (r = (e.parents.filterMap (roundOf states)).foldl max 0 ∨
      r = (e.parents.filterMap (roundOf states)).foldl max 0 + 1)
  /-- An author with an event in a round has one witness there, the first
  such event of the list. -/
  witness : ∀ s ∈ states, ∃ e w,
    G.find? (fun e => e.author = s.creator ∧ roundOf states e.id = some s.round) = some e ∧
      w.eventId = e.id ∧ ∀ w', IsWitness states s.round s.creator w' ↔ w' = w
  /-- Above a round, a supermajority of the members has its witness of the
  round among the ancestors. -/
  support : ∀ s ∈ states, ∀ k < s.round, ∃ counted : Finset String, counted ⊆ members.toFinset ∧
    2 * members.length / 3 + 1 ≤ counted.card ∧
    ∀ c ∈ counted, ∃ w, IsWitness states k c w ∧ Anc G s.eventId w.eventId

theorem PassOn.roundLaws (P : PassOn G members pathMeta t states) : RoundLaws G members states where
  listed := P.ids_perm
  step := by
    intro e he
    have hmem : e.id ∈ ids G := List.mem_map_of_mem he
    obtain ⟨b, hb, hr⟩ := P.table.rounds e.id hmem
    refine ⟨t.round e.id, P.roundOf_iff.2 ⟨hmem, rfl⟩, ?_⟩
    rw [(P.isBase he).unique hb, hr]
    split
    · exact .inr rfl
    · exact .inl rfl
  witness := by
    intro s hs
    obtain ⟨a, ha, rfl⟩ := P.mem_iff.1 hs
    obtain ⟨x, hx⟩ := exists_firstAt ⟨a, ha, rfl, rfl⟩ t.round
    have hfind := (P.find?_first (t.round a.id) a.author).trans hx
    obtain ⟨e, he, rfl⟩ := Option.map_eq_some_iff.1 hfind
    have heG := List.mem_of_find?_eq_some he
    refine ⟨e, stateOf G members t pathMeta e, he, rfl, fun w' => P.isWitness_iff.trans ⟨?_, ?_⟩⟩
    · rintro ⟨e', he', rfl, hfirst⟩
      have hid : e'.id = e.id := Option.some.inj (hfirst.symm.trans hx)
      rw [eq_of_id P.parentsFirst.nodup he' heG hid]
    · rintro rfl
      exact ⟨e, heG, rfl, hx⟩
  support := by
    intro s hs k hk
    obtain ⟨e, he, rfl⟩ := P.mem_iff.1 hs
    have hsupport := P.table.support P.parentsFirst (List.mem_map_of_mem he) hk
    refine ⟨seenFirst G G members t.round k e.id, fun c hc => ?_, ?_, fun c hc => ?_⟩
    · exact List.mem_toFinset.2 (mem_seenFirst.1 hc).1
    · exact (Nat.le_max_right _ _).trans hsupport
    · obtain ⟨-, x, hx, hanc⟩ := mem_seenFirst.1 hc
      obtain ⟨w, hw, rfl⟩ := P.isWitness_of_wit ((P.table.wits k c).trans hx)
      exact ⟨w, hw, hanc⟩

/-- **The rounds of a pass.** On a list with the parents first, forks and
missing parents included, a pass returns, and its states keep the laws of
rounds. -/
theorem recompute_rounds (hG : ParentsFirst G) (engine : ConsensusEngine)
    (membership : List MembershipEntry) (pathMeta : Dict String (List Hop)) :
    ∃ states, engine.recompute G membership pathMeta = some states ∧
      RoundLaws G (engine.normalizeMembership membership) states := by
  obtain ⟨t, states, P, hrun⟩ := recompute_passOn hG engine membership pathMeta
  exact ⟨states, hrun, P.roundLaws⟩

/-- A fork of the only member over a pruned parent, joined again. -/
def forkedChain : List Event :=
  [Event.linked "a0" "a" ["gone"], Event.linked "a1" "a" ["a0"], Event.linked "b1" "a" ["a0"],
    Event.linked "a2" "a" ["a1", "b1"]]

theorem recompute_rounds_forked :
    ParentsFirst forkedChain ∧ ∃ states,
      (ConsensusEngine.mk "a").recompute forkedChain [⟨"a", "", "node", true⟩] [] = some states ∧
      RoundLaws forkedChain ["a"] states :=
  ⟨by decide, recompute_rounds (by decide) ⟨"a"⟩ [⟨"a", "", "node", true⟩] []⟩

/-! ## Fame -/

/-- The laws of fame among the states of a pass. -/
structure FameLaws (members : List String) (states : List ConsensusState) : Prop where
  /-- With a member's witness two rounds later, a witness is decided. -/
  decided : ∀ k c w, IsWitness states k c w → ∀ j d v, k + 2 ≤ j → d ∈ members →
    IsWitness states j d v → w.fameDecided = true
  /-- Without one, a decision is a vote of the next round. -/
  next : ∀ k c w, IsWitness states k c w →
    (¬ ∃ j d v, k + 2 ≤ j ∧ d ∈ members ∧ IsWitness states j d v) → w.fameDecided = true →
    w.fameDecisionKind = .vote ∧ w.fameDecisionRound = some (k + 1)

theorem PassOn.fameLaws (P : PassOn G members pathMeta t states) : FameLaws members states where
  decided := by
    intro k c w hw j d v hj hd hv
    have g := P.table.graded P.parentsFirst
    have hlong := g.two_votingRounds hj (List.mem_toFinset.2 hd) (P.wit_of_isWitness hv)
    rw [(P.fame_eq hw).1]
    exact g.decided_of_occupied hlong w.eventId
  next := by
    intro k c w hw hnone hdec
    obtain ⟨hd, -, hkind, hround⟩ := P.fame_eq hw
    have g := P.table.graded P.parentsFirst
    rw [hd] at hdec
    rw [hkind, hround]
    -- a later round of the election with a member's vote is the next one
    have hlate : ∀ j d, d ∈ members.toFinset → ((election G members t).wit j d).isSome → j < k + 2 := by
      intro j d hdm hsome
      by_contra hj
      obtain ⟨x, hx⟩ := Option.isSome_iff_exists.1 hsome
      obtain ⟨v, hv, -⟩ := P.isWitness_of_wit hx
      exact hnone ⟨j, d, v, Nat.not_lt.1 hj, List.mem_toFinset.1 hdm, hv⟩
    cases g.record k w.eventId with
    | vote _ hvote _ =>
      obtain ⟨j, hj, hc⟩ := fameRecord_decisionRound P.parentsFirst
        (P.table.stacked P.parentsFirst) hvote
      obtain ⟨d, hdm, hv⟩ := g.quorate.exists_of_carries hc
      obtain ⟨x, hx⟩ := Election.wit_of_vote (k := j) (by rw [hv]; rfl)
      have hlt := hlate _ d hdm (by rw [hx]; rfl)
      obtain rfl : j = 0 := by omega
      exact ⟨hvote, hj⟩
    | coin _ _ hlong _ _ =>
      exfalso
      have hsub : votingRounds (election G members t) t.count k ⊆ {k + 1} := by
        intro j hj
        simp only [votingRounds, Finset.mem_filter, Finset.mem_range] at hj
        obtain ⟨-, hkj, d, hdm, hsome⟩ := hj
        have := hlate j d hdm hsome
        exact Finset.mem_singleton.2 (by omega)
      have := Finset.card_le_card hsub
      rw [Finset.card_singleton] at this
      omega
    | pending hpend _ _ _ _ => rw [hpend] at hdec; cases hdec

/-- **Fame is decided two rounds later.** In a pass on a list with the
parents first, a witness with a member's witness two rounds or more above is
decided, and one without is decided by a vote of the next round or not at
all. -/
theorem recompute_fame (hG : ParentsFirst G) (engine : ConsensusEngine)
    (membership : List MembershipEntry) (pathMeta : Dict String (List Hop)) :
    ∃ states, engine.recompute G membership pathMeta = some states ∧
      FameLaws (engine.normalizeMembership membership) states := by
  obtain ⟨t, states, P, hrun⟩ := recompute_passOn hG engine membership pathMeta
  exact ⟨states, hrun, P.fameLaws⟩

theorem recompute_fame_forked :
    ParentsFirst forkedChain ∧ ∃ states,
      (ConsensusEngine.mk "a").recompute forkedChain [⟨"a", "", "node", true⟩] [] = some states ∧
      FameLaws ["a"] states :=
  ⟨by decide, recompute_fame (by decide) ⟨"a"⟩ [⟨"a", "", "node", true⟩] []⟩

/-! ## Received rounds -/

theorem received_le {E : Election String String} {n r : Nat} {x : String} (h : Receives E n x r)
    (hr : r < n) : ∃ r' ≤ r, received E n x = some r' := by
  cases hrec : received E n x with
  | none => exact absurd h (received_eq_none.1 hrec r hr)
  | some r' =>
    refine ⟨r', ?_, rfl⟩
    by_contra hlt
    exact (received_eq_some.1 hrec).2.2 r (Nat.not_le.1 hlt) h

/-- What receives an event receives the events it sees. -/
theorem Receives.mono {E : Election String String} (hE : E.Layered) {n r : Nat} {x y : String}
    (hxy : E.sees x y) (h : Receives E n x r) : Receives E n y r := by
  rcases h with ⟨hdec, hle⟩ | ⟨hund, hle⟩
  · exact .inl ⟨hdec, hle.trans (Election.card_votersWith_mono fun _ _ _ hv => ⟨hv.1, hE.trans hv.2 hxy⟩)⟩
  · exact .inr ⟨hund, hle.trans (Election.card_votersWith_mono fun _ _ _ hv => hE.trans hv hxy)⟩

/-- The laws of received rounds among the states of a pass. -/
structure ReceivedLaws (G : List Event) (members : List String) (states : List ConsensusState) :
    Prop where
  /-- A supermajority of the members has a witness in the received round that
  is the event or descends from it, a famous one if the round has a decided
  witness. -/
  seen : ∀ s ∈ states, ∀ r, s.roundReceived = some r → ∃ counted : Finset String,
    counted ⊆ members.toFinset ∧ 2 * members.length / 3 + 1 ≤ counted.card ∧
    ∀ c ∈ counted, ∃ w, IsWitness states r c w ∧ Sees G w.eventId s.eventId ∧
      (SomeDecided states r → w.isFamousWitness = true)
  /-- A received round is decided as a whole or not at all. -/
  whole : ∀ s ∈ states, ∀ r, s.roundReceived = some r → SomeDecided states r →
    ∀ c w, IsWitness states r c w → w.fameDecided = true
  /-- Causes are received no later than effects. -/
  mono : ∀ s ∈ states, ∀ s' ∈ states, Anc G s'.eventId s.eventId → ∀ r', s'.roundReceived = some r' →
    ∃ r ≤ r', s.roundReceived = some r

theorem PassOn.decided_iff (P : PassOn G members pathMeta t states) {k : Nat} {c : String}
    {w : ConsensusState} (h : IsWitness states k c w) :
    w.fameDecided = true ↔ Decided (election G members t) t.count k w.eventId := by
  rw [(P.fame_eq h).1]
  rfl

theorem PassOn.receivedLaws (P : PassOn G members pathMeta t states) :
    ReceivedLaws G members states where
  seen := by
    intro s hs r hr
    obtain ⟨e, he, rfl⟩ := P.mem_iff.1 hs
    obtain ⟨-, hrec, -⟩ := received_eq_some.1 hr
    rcases hrec with ⟨-, hle⟩ | ⟨hund, hle⟩
    · refine ⟨_, fun c hc => (Election.mem_votersWith.1 hc).1, (Nat.le_max_right _ _).trans hle,
        fun c hc => ?_⟩
      obtain ⟨-, x, hx, hf, hsees⟩ := Election.mem_votersWith.1 hc
      obtain ⟨w, hw, rfl⟩ := P.isWitness_of_wit hx
      exact ⟨w, hw, hsees, fun _ => (P.fame_eq hw).2.1.trans hf⟩
    · refine ⟨_, fun c hc => (Election.mem_votersWith.1 hc).1, (Nat.le_max_right _ _).trans hle,
        fun c hc => ?_⟩
      obtain ⟨-, x, hx, hsees⟩ := Election.mem_votersWith.1 hc
      obtain ⟨w, hw, rfl⟩ := P.isWitness_of_wit hx
      refine ⟨w, hw, hsees, ?_⟩
      rintro ⟨d, v, hv, hdec⟩
      exact absurd ((P.decided_iff hv).1 hdec) (hund d _ (P.wit_of_isWitness hv))
  whole := by
    rintro s hs r hr ⟨d, v, hv, hdec⟩ c w hw
    obtain ⟨e, he, rfl⟩ := P.mem_iff.1 hs
    obtain ⟨-, hrec, -⟩ := received_eq_some.1 hr
    rcases hrec with ⟨hall, -⟩ | ⟨hund, -⟩
    · exact (P.decided_iff hw).2 (hall c _ (P.wit_of_isWitness hw))
    · exact absurd ((P.decided_iff hv).1 hdec) (hund d _ (P.wit_of_isWitness hv))
  mono := by
    intro s hs s' hs' hanc r' hr'
    obtain ⟨e, he, rfl⟩ := P.mem_iff.1 hs
    obtain ⟨e', he', rfl⟩ := P.mem_iff.1 hs'
    obtain ⟨hlt, hrec, -⟩ := received_eq_some.1 hr'
    have g := P.table.graded P.parentsFirst
    exact received_le (hrec.mono g.layered hanc.to_reflTransGen) hlt

/-- **Received rounds are sound and monotone.** -/
theorem recompute_received (hG : ParentsFirst G) (engine : ConsensusEngine)
    (membership : List MembershipEntry) (pathMeta : Dict String (List Hop)) :
    ∃ states, engine.recompute G membership pathMeta = some states ∧
      ReceivedLaws G (engine.normalizeMembership membership) states := by
  obtain ⟨t, states, P, hrun⟩ := recompute_passOn hG engine membership pathMeta
  exact ⟨states, hrun, P.receivedLaws⟩

theorem recompute_received_forked :
    ParentsFirst forkedChain ∧ ∃ states,
      (ConsensusEngine.mk "a").recompute forkedChain [⟨"a", "", "node", true⟩] [] = some states ∧
      ReceivedLaws forkedChain ["a"] states :=
  ⟨by decide, recompute_received (by decide) ⟨"a"⟩ [⟨"a", "", "node", true⟩] []⟩

end Mdrj.L2
