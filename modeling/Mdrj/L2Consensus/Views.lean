import Mdrj.L2Consensus.Pass

/-!
# Partial views

Two nodes that have received different parts of one graph run the pass on
different parent-closed event sets. Rounds and witness flags are the same in
every view that has the event (`rounds_stable`), the election of a view
extends to that of a larger one (`View.election_extends`), and therefore no
two views settle a vote on one witness differently (`vote_agreement`).
-/
namespace Mdrj.L2
open Mdrj.Core Mdrj.L1 Relation

/-! ## Reading a result -/

/-- The state a result assigns to the event `x`. -/
def lookupState (result : Option (List ConsensusState)) (x : String) : Option ConsensusState :=
  result.bind fun states => states.find? fun s => s.eventId = x

variable {G G' G₁ G₂ : List Event} {members : List String} {t t' : RoundTable}

/-- The state found for an id is that of the event with the id. -/
theorem lookupState_map (hn : (ids G).Nodup) {ordered : List Event} (hperm : ordered.Perm G)
    (pathMeta : Dict String (List Hop)) {x : String} {s : ConsensusState} :
    lookupState (some (ordered.map (stateOf G members t pathMeta))) x = some s ↔
      ∃ e ∈ G, e.id = x ∧ stateOf G members t pathMeta e = s := by
  show List.find? _ (ordered.map _) = some s ↔ _
  rw [List.find?_map, Option.map_eq_some_iff]
  constructor
  · rintro ⟨e, he, rfl⟩
    have hsome := List.find?_some he
    have hid : e.id = x := of_decide_eq_true hsome
    exact ⟨e, hperm.mem_iff.1 (List.mem_of_find?_eq_some he), hid, rfl⟩
  · rintro ⟨e, he, rfl, rfl⟩
    cases hfind : ordered.find? ((fun s : ConsensusState => decide (s.eventId = e.id)) ∘
        stateOf G members t pathMeta) with
    | none =>
      rw [List.find?_eq_none] at hfind
      exact absurd (by simp [stateOf, consensusState]) (hfind e (hperm.mem_iff.2 he))
    | some e' =>
      have hsome := List.find?_some hfind
      have hid : e'.id = e.id := of_decide_eq_true hsome
      have he' := hperm.mem_iff.1 (List.mem_of_find?_eq_some hfind)
      exact ⟨e', rfl, by rw [eq_of_id hn he' he hid]⟩

theorem recompute_lookup (hG : ParentsFirst G) (hf : ForkFree G) (engine : ConsensusEngine)
    (membership : List MembershipEntry) (pathMeta : Dict String (List Hop)) :
    ∃ t, TableInv G (engine.normalizeMembership membership) G t ∧
      ∀ x s, lookupState (engine.recompute G membership pathMeta) x = some s ↔
        ∃ e ∈ G, e.id = x ∧
          stateOf G (engine.normalizeMembership membership) t pathMeta e = s := by
  obtain ⟨t, h, hrun⟩ := recompute_eq hG hf engine membership pathMeta
  refine ⟨t, h, fun x s => ?_⟩
  rw [hrun]
  exact lookupState_map hG.nodup (totalOrder_perm _ _) pathMeta

/-- Two engines that count the same members: one node id, or both in the
membership. -/
def SameMembers (engine engine' : ConsensusEngine) (membership : List MembershipEntry) : Prop :=
  engine.nodeId = engine'.nodeId ∨
    engine.nodeId ∈ memberIds membership ∧ engine'.nodeId ∈ memberIds membership

theorem SameMembers.normalize_eq {engine engine' : ConsensusEngine}
    {membership : List MembershipEntry} (h : SameMembers engine engine' membership) :
    engine.normalizeMembership membership = engine'.normalizeMembership membership := by
  unfold ConsensusEngine.normalizeMembership
  rcases h with h | ⟨h, h'⟩
  · rw [h]
  · simp only [h, h', if_true]

/-! ## Tables and elections of two views -/

theorem View.forkFree (hv : View G G') (hn : (ids G').Nodup) (hf : ForkFree G') : ForkFree G := by
  intro a ha b hb hab
  have haG : a.id ∈ ids G := List.mem_map_of_mem ha
  have hbG : b.id ∈ ids G := List.mem_map_of_mem hb
  have ha' : Auth G' a.id a.author := (hv.auth_iff hn haG).1 ⟨a, ha, rfl, rfl⟩
  have hb' : Auth G' b.id a.author := (hv.auth_iff hn hbG).1 ⟨b, hb, rfl, hab.symm⟩
  rcases hf.auth ha' hb' with he | hanc | hanc
  · exact .inl he
  · exact .inr (.inl ((hv.anc_iff hn haG).2 hanc))
  · exact .inr (.inr ((hv.anc_iff hn hbG).2 hanc))

section Tables
variable (hv : View G G') (hG : ParentsFirst G) (hG' : ParentsFirst G')
  (h : TableInv G members G t) (h' : TableInv G' members G' t')
include hv hG hG' h h'

theorem View.table_round {x : String} (hx : x ∈ ids G) : t.round x = t'.round x :=
  hv.round_eq hG'.nodup hG h.rounds h'.rounds x hx

theorem View.table_witAt {r : Nat} {c w : String} (hw : w ∈ ids G) :
    WitAt G t.round r c w ↔ WitAt G' t'.round r c w :=
  hv.witAt_iff hG'.nodup hw fun _ _ hy => hv.table_round hG hG' h h' hy

theorem View.election_extends :
    Election.Extends (election G members t) (election G' members t') where
  members := rfl
  threshold := rfl
  wit := by
    intro k c v hw
    obtain ⟨hmem, hwit⟩ := (h.wits k c v).1 hw
    exact (h'.wits k c v).2 ⟨hv.mem_ids hmem, (hv.table_witAt hG hG' h h' hmem).1 hwit⟩
  sees := by
    intro k c v hw u
    exact hv.sees_iff hG'.nodup ((h.wits k c v).1 hw).1
  closed := by
    intro k c v k' c' u hw hu hs
    obtain ⟨huG', huwit⟩ := (h'.wits k' c' u).1 hu
    have huG := hv.mem_of_sees hG'.nodup ((h.wits k c v).1 hw).1 hs huG'
    exact (h.wits k' c' u).2 ⟨huG, (hv.table_witAt hG hG' h h' huG).2 huwit⟩

end Tables

theorem stateOf_round (pathMeta : Dict String (List Hop)) (e : Event) :
    (stateOf G members t pathMeta e).round = t.round e.id := rfl

open Classical in
theorem stateOf_isWitness (h : TableInv G members G t) (pathMeta : Dict String (List Hop))
    {e : Event} (he : e ∈ G) : (stateOf G members t pathMeta e).isWitness =
      decide (WitAt G t.round (t.round e.id) e.author e.id) := by
  show (Dict.get t.witnessFlags e.id).getD false = _
  rw [h.flags e he]
  rfl

/-- **Stability of rounds.** An event has one round and one witness flag in
every view that has it. -/
theorem rounds_stable (hG : ParentsFirst G) (hG' : ParentsFirst G') (hf : ForkFree G)
    (hf' : ForkFree G') (hv : View G G') {engine engine' : ConsensusEngine}
    {membership : List MembershipEntry} (hm : SameMembers engine engine' membership)
    (pathMeta pathMeta' : Dict String (List Hop)) :
    ∀ e ∈ G, ∃ s s', lookupState (engine.recompute G membership pathMeta) e.id = some s ∧
      lookupState (engine'.recompute G' membership pathMeta') e.id = some s' ∧
      s.round = s'.round ∧ s.isWitness = s'.isWitness := by
  intro e he
  obtain ⟨t, h, hres⟩ := recompute_lookup hG hf engine membership pathMeta
  obtain ⟨t', h', hres'⟩ := recompute_lookup hG' hf' engine' membership pathMeta'
  rw [← hm.normalize_eq] at h' hres'
  obtain ⟨e', he', hs⟩ := hv.sub e he
  have heG : e.id ∈ ids G := List.mem_map_of_mem he
  have hround := hv.table_round hG hG' h h' heG
  refine ⟨_, _, (hres e.id _).2 ⟨e, he, rfl, rfl⟩, (hres' e.id _).2 ⟨e', he', static_id hs, rfl⟩,
    ?_, ?_⟩
  · rw [stateOf_round, stateOf_round, static_id hs, hround]
  · rw [stateOf_isWitness h _ he, stateOf_isWitness h' _ he', static_id hs, static_author hs,
      ← hround, decide_eq_decide]
    exact hv.table_witAt hG hG' h h' heG

/-- The members of the graph below. -/
def fourMembers : List MembershipEntry := ["a", "b", "c", "d"].map (⟨·, "", "node", true⟩)

/-- Four members; the last event opens another voting round for the
witnesses of round one. -/
def retossed : List Event :=
  [Event.linked "c0" "c" [], Event.linked "d0" "d" ["c0"], Event.linked "a0" "a" ["d0"],
    Event.linked "c1" "c" ["c0", "a0"], Event.linked "a1" "a" ["a0", "c1"],
    Event.linked "b0" "b" ["d0"], Event.linked "a2" "a" ["a1", "b0"],
    Event.linked "b1" "b" ["b0", "a2"], Event.linked "a3" "a" ["a2", "b1"],
    Event.linked "d1" "d" ["d0", "a3"], Event.linked "c2" "c" ["c1", "b1"],
    Event.linked "d2" "d" ["d1", "c2"]]

theorem retossed_parentsFirst : ParentsFirst retossed := by decide +kernel

theorem retossed_forkFree : ForkFree retossed :=
  forkFree_of_ancestors retossed_parentsFirst (by decide +kernel)

/-- The first events of the graph, seen before the others. -/
theorem retossed_view (k : Nat) : View (retossed.take k) retossed := by
  have h := retossed_parentsFirst
  rw [← List.take_append_drop k retossed] at h
  have hv := h.view_prefix
  rwa [List.take_append_drop] at hv

theorem rounds_stable_retossed :
    ∃ s s', lookupState ((ConsensusEngine.mk "a").recompute (retossed.take 9) fourMembers []) "b1" = some s ∧
      lookupState ((ConsensusEngine.mk "d").recompute retossed fourMembers []) "b1" = some s' ∧
      s.round = s'.round ∧ s.isWitness = s'.isWitness :=
  rounds_stable (by decide +kernel) retossed_parentsFirst
    ((retossed_view 9).forkFree retossed_parentsFirst.nodup retossed_forkFree) retossed_forkFree
    (retossed_view 9) (.inr ⟨by decide, by decide⟩) [] [] (Event.linked "b1" "b" ["b0", "a2"])
    (by simp [retossed])

/-! ## Agreement of the votes -/

/-- A record decided by vote names a witness and a round that carries it. -/
theorem stateOf_vote (hG : ParentsFirst G) (h : TableInv G members G t)
    {pathMeta : Dict String (List Hop)} {e : Event}
    (hk : (stateOf G members t pathMeta e).fameDecisionKind = .vote) :
    ∃ k, (election G members t).Carries e.id (t.round e.id) k
      (stateOf G members t pathMeta e).isFamousWitness := by
  have hrec : fameOf (fameTable G members t) (t.round e.id) e.id =
      fameRecord (election G members t) t.count (t.round e.id) e.id := by
    change (fameOf (fameTable G members t) (t.round e.id) e.id).decisionKind = .vote at hk
    rw [fameOf_eq hG h] at hk ⊢
    split
    · rfl
    · rename_i hnot; rw [if_neg hnot] at hk; cases hk
  change (fameOf (fameTable G members t) (t.round e.id) e.id).decisionKind = .vote at hk
  show ∃ k, Election.Carries _ _ _ k (fameOf (fameTable G members t) (t.round e.id) e.id).famous
  rw [hrec] at hk ⊢
  cases fameRecord_case hG (h.stacked hG) (t.round e.id) e.id with
  | vote _ _ hc => exact hc
  | coin _ hkind _ _ _ => rw [hkind] at hk; cases hk
  | pending _ hkind _ _ _ => rw [hkind] at hk; cases hk

/-- **Agreement of voted fame.** Two views of one fork-free graph that decide
a witness by vote decide it alike, in whatever rounds. -/
theorem vote_agreement (hG : ParentsFirst G) (hf : ForkFree G) (h₁ : ParentsFirst G₁)
    (h₂ : ParentsFirst G₂) (hv₁ : View G₁ G) (hv₂ : View G₂ G) {engine₁ engine₂ : ConsensusEngine}
    {membership : List MembershipEntry} (hm : SameMembers engine₁ engine₂ membership)
    (pathMeta₁ pathMeta₂ : Dict String (List Hop)) {x : String} {s₁ s₂ : ConsensusState}
    (hs₁ : lookupState (engine₁.recompute G₁ membership pathMeta₁) x = some s₁)
    (hs₂ : lookupState (engine₂.recompute G₂ membership pathMeta₂) x = some s₂)
    (hk₁ : s₁.fameDecisionKind = .vote) (hk₂ : s₂.fameDecisionKind = .vote) :
    s₁.isFamousWitness = s₂.isFamousWitness := by
  obtain ⟨t, -, -, h, -⟩ := rounds_yields (engine₁.normalizeMembership membership)
    hG hf [] cacheOk_nil
  obtain ⟨t₁, ht₁, hres₁⟩ :=
    recompute_lookup h₁ (hv₁.forkFree hG.nodup hf) engine₁ membership pathMeta₁
  obtain ⟨t₂, ht₂, hres₂⟩ :=
    recompute_lookup h₂ (hv₂.forkFree hG.nodup hf) engine₂ membership pathMeta₂
  rw [← hm.normalize_eq] at ht₂ hres₂
  obtain ⟨e₁, he₁, rfl, rfl⟩ := (hres₁ x s₁).1 hs₁
  obtain ⟨e₂, he₂, hid, rfl⟩ := (hres₂ _ s₂).1 hs₂
  obtain ⟨k₁, hc₁⟩ := stateOf_vote h₁ ht₁ hk₁
  obtain ⟨k₂, hc₂⟩ := stateOf_vote h₂ ht₂ hk₂
  -- both carried rounds are rounds of the common graph
  have hc₁' := (hv₁.election_extends h₁ hG ht₁ h).carries hc₁
  have hc₂' := (hv₂.election_extends h₂ hG ht₂ h).carries hc₂
  rw [hv₁.table_round h₁ hG ht₁ h (List.mem_map_of_mem he₁)] at hc₁'
  rw [hv₂.table_round h₂ hG ht₂ h (List.mem_map_of_mem he₂), hid] at hc₂'
  exact Election.agree election_quorate hc₁' hc₂'

theorem vote_agreement_retossed :
    ∃ s₁ s₂, lookupState ((ConsensusEngine.mk "a").recompute (retossed.take 9) fourMembers []) "d0" = some s₁ ∧
      lookupState ((ConsensusEngine.mk "d").recompute (retossed.take 11) fourMembers []) "d0" = some s₂ ∧
      s₁.fameDecisionKind = .vote ∧ s₂.fameDecisionKind = .vote ∧
      s₁.isFamousWitness = s₂.isFamousWitness := by
  have h₁ : (lookupState ((ConsensusEngine.mk "a").recompute (retossed.take 9) fourMembers [])
      "d0").map ConsensusState.fameDecisionKind = some .vote := by decide +kernel
  have h₂ : (lookupState ((ConsensusEngine.mk "d").recompute (retossed.take 11) fourMembers [])
      "d0").map ConsensusState.fameDecisionKind = some .vote := by decide +kernel
  obtain ⟨s₁, hs₁, hk₁⟩ := Option.map_eq_some_iff.1 h₁
  obtain ⟨s₂, hs₂, hk₂⟩ := Option.map_eq_some_iff.1 h₂
  exact ⟨s₁, s₂, hs₁, hs₂, hk₁, hk₂, vote_agreement retossed_parentsFirst retossed_forkFree
    (by decide +kernel) (by decide +kernel) (retossed_view 9) (retossed_view 11)
    (.inr ⟨by decide, by decide⟩) [] [] hs₁ hs₂ hk₁ hk₂⟩

end Mdrj.L2
