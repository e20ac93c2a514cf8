import Mdrj.L2Consensus.Fame
import Mdrj.L2Consensus.Order

/-!
# What a pass computes

The received round of an event is the first round whose famous witnesses
(all witnesses while nothing in the round is decided) see it by a
supermajority; a round decided in part receives nothing. `Receives` says so
in terms of the election. `recompute_eq` puts the pass together: on a
fork-free graph listed parents first, `recompute` returns the events in
`total_order`, each with the state that the round table and the election
give it.
-/
namespace Mdrj.L2
open Mdrj.Core Mdrj.L1 Relation

variable {G : List Event} {members : List String} {t : RoundTable}

/-! ## The received round -/

open Classical in
/-- `seeing_creators` counts the members whose listed witness sees `x`. -/
theorem seenBySupermajority_computes (hG : ParentsFirst G) (ws : Dict String String) (x : String) :
    Computes (CacheOk G) (seenBySupermajority (passCtx G members) ws x)
      (decide (supermajorityThreshold members.length ≤
        (members.toFinset.filter fun c => ∃ v, (c, v) ∈ ws ∧ Sees G v x).card)) := by
  unfold seenBySupermajority
  refine Computes.bind (Computes.collectM (g := fun p => if Sees G p.2 x then some p.1 else none) ?_)
    (Yields.pure ?_)
  · intro p _
    exact (canSee_computes hG p.2 x).bind (Yields.pure (by simp))
  · have hcard : commonCount (ws.filterMap fun p => if Sees G p.2 x then some p.1 else none)
        members = (members.toFinset.filter fun c => ∃ v, (c, v) ∈ ws ∧ Sees G v x).card := by
      unfold commonCount
      congr 1
      ext c
      rw [Finset.mem_inter, List.mem_toFinset, Finset.mem_filter, List.mem_filterMap, and_comm]
      refine and_congr_right fun _ => ?_
      constructor
      · rintro ⟨⟨c', v⟩, hp, hc⟩
        simp only [Option.ite_none_right_eq_some, Option.some_inj] at hc
        obtain ⟨hs, rfl⟩ := hc
        exact ⟨v, hp, hs⟩
      · rintro ⟨v, hp, hs⟩
        exact ⟨(c, v), hp, by simp [hs]⟩
    show decide (_ ≤ commonCount _ members) = _
    rw [hcard]
    rfl

/-- The witness `w` of round `r` has a verdict. -/
def Decided (E : Election String String) (n r : Nat) (w : String) : Prop :=
  (fameRecord E n r w).decided = true

/-- Round `r` receives `x`: all its witnesses have a verdict and a
supermajority of famous ones sees `x`, or none has one and a supermajority
of all sees `x`. -/
def Receives (E : Election String String) (n : Nat) (x : String) (r : Nat) : Prop :=
  ((∀ c w, E.wit r c = some w → Decided E n r w) ∧
    E.threshold ≤ (E.votersWith r fun v => (fameRecord E n r v).famous = true ∧ E.sees v x).card) ∨
  ((∀ c w, E.wit r c = some w → ¬ Decided E n r w) ∧
    E.threshold ≤ (E.votersWith r (E.sees · x)).card)

open Classical in
noncomputable def received (E : Election String String) (n : Nat) (x : String) : Option Nat :=
  (List.range n).find? fun r => decide (Receives E n x r)

theorem received_eq_none {E : Election String String} {n : Nat} {x : String} :
    received E n x = none ↔ ∀ r < n, ¬ Receives E n x r := by
  unfold received
  simp only [List.find?_eq_none, List.mem_range, decide_eq_true_eq]

theorem received_eq_some {E : Election String String} {n r : Nat} {x : String} :
    received E n x = some r ↔ r < n ∧ Receives E n x r ∧ ∀ r' < r, ¬ Receives E n x r' := by
  unfold received
  simp only [List.find?_range_eq_some, decide_eq_true_eq, List.mem_range, Bool.not_eq_true',
    decide_eq_false_iff_not]
  tauto

theorem votersWith_pos {E : Election String String} (hq : E.Quorate) {r : Nat}
    {P : String → Prop} (h : E.threshold ≤ (E.votersWith r P).card) :
    ∃ c v, E.wit r c = some v ∧ P v := by
  obtain ⟨c, hc⟩ := Finset.card_pos.1 (lt_of_lt_of_le hq.pos h)
  obtain ⟨-, v, hv, hP⟩ := Election.mem_votersWith.1 hc
  exact ⟨c, v, hv, hP⟩

theorem fameState_eq (G : List Event) (members : List String) (h : t.Stacked) (r : Nat) :
    Dict.values ((Dict.get (fameTable G members t) r).getD []) =
      (Dict.values (t.witnesses r)).map (fameRecord (election G members t) t.count r) := by
  rw [fameTable_get G members h, Dict.values, List.map_map]; rfl

theorem forall_witness_values (h : t.Stacked) {r : Nat} {P : String → Prop} :
    (∀ w ∈ Dict.values (t.witnesses r), P w) ↔
      ∀ c w, (election G members t).wit r c = some w → P w := by
  constructor
  · intro hP c w hw
    exact hP w ((Dict.mem_values (h.nodup r)).2 ⟨c, hw⟩)
  · intro hP w hw
    obtain ⟨c, hc⟩ := (Dict.mem_values (h.nodup r)).1 hw
    exact hP c w hc

theorem exists_witness_values (h : t.Stacked) {r : Nat} {P : String → Prop} :
    (∃ w ∈ Dict.values (t.witnesses r), P w) ↔
      ∃ c w, (election G members t).wit r c = some w ∧ P w := by
  constructor
  · rintro ⟨w, hw, hP⟩
    obtain ⟨c, hc⟩ := (Dict.mem_values (h.nodup r)).1 hw
    exact ⟨c, w, hc, hP⟩
  · rintro ⟨c, w, hw, hP⟩
    exact ⟨w, (Dict.mem_values (h.nodup r)).2 ⟨c, hw⟩, hP⟩

theorem seenBy_card (G : List Event) (members : List String) (h : t.Stacked) (r : Nat) (x : String)
    (P : String → Bool) :
    open Classical in
    (members.toFinset.filter fun c => ∃ v, (c, v) ∈ (t.witnesses r).filter (fun p => P p.2) ∧
      Sees G v x).card =
    ((election G members t).votersWith r fun v => P v = true ∧ Sees G v x).card := by
  classical
  congr 1
  ext c
  rw [Finset.mem_filter, Election.mem_votersWith]
  refine and_congr_right fun _ => exists_congr fun v => ?_
  rw [List.mem_filter, Dict.mem_iff_get (h.nodup r)]
  constructor
  · rintro ⟨⟨h1, h2⟩, h3⟩; exact ⟨h1, h2, h3⟩
  · rintro ⟨h1, h2, h3⟩; exact ⟨⟨h1, h2⟩, h3⟩

theorem Receives.exists_witness {E : Election String String} (hq : E.Quorate) {n r : Nat}
    {x : String} (h : Receives E n x r) : ∃ c v, E.wit r c = some v := by
  rcases h with ⟨-, hc⟩ | ⟨-, hc⟩
  · obtain ⟨c, v, hv, -⟩ := votersWith_pos hq hc
    exact ⟨c, v, hv⟩
  · obtain ⟨c, v, hv, -⟩ := votersWith_pos hq hc
    exact ⟨c, v, hv⟩

theorem famousWitnesses_eq (G : List Event) (members : List String) (h : t.Stacked) (r : Nat) :
    famousWitnesses t (fameTable G members t) r = (t.witnesses r).filter fun p =>
      (fameRecord (election G members t) t.count r p.2).decided &&
        (fameRecord (election G members t) t.count r p.2).famous := by
  unfold famousWitnesses
  refine List.filter_congr fun p hp => ?_
  have hw : ∃ c, Dict.get (t.witnesses r) c = some p.2 := ⟨p.1, Dict.get_of_mem (h.nodup r) hp⟩
  rw [fameOf_get G members h, if_pos hw]

section Verdicts
variable (h : t.Stacked) (r : Nat)
include h

theorem all_decided_iff : ((Dict.values (t.witnesses r)).map
    (fameRecord (election G members t) t.count r)).all (·.decided) = true ↔
      ∀ c w, (election G members t).wit r c = some w → Decided (election G members t) t.count r w := by
  rw [List.all_eq_true, List.forall_mem_map]
  exact forall_witness_values h

theorem any_decided_iff : ((Dict.values (t.witnesses r)).map
    (fameRecord (election G members t) t.count r)).any (·.decided) = true ↔
      ∃ c w, (election G members t).wit r c = some w ∧ Decided (election G members t) t.count r w := by
  rw [List.any_map, List.any_eq_true]
  exact exists_witness_values h

theorem no_witness_of_nil (hnil : (Dict.values (t.witnesses r)).map
    (fameRecord (election G members t) t.count r) = []) (c w : String) :
    (election G members t).wit r c ≠ some w := by
  intro hw
  have hmem := (Dict.mem_values (h.nodup r)).2 ⟨c, hw⟩
  rw [List.map_eq_nil_iff.1 hnil] at hmem
  cases hmem

end Verdicts

/-- With all verdicts in, the famous witnesses are those with the verdict. -/
theorem votersWith_famous {r : Nat} (hdec : ∀ c w, (election G members t).wit r c = some w →
    Decided (election G members t) t.count r w) (x : String) :
    ((election G members t).votersWith r fun v =>
      ((fameRecord (election G members t) t.count r v).decided &&
        (fameRecord (election G members t) t.count r v).famous) = true ∧ Sees G v x) =
      (election G members t).votersWith r fun v =>
        (fameRecord (election G members t) t.count r v).famous = true ∧ (election G members t).sees v x := by
  ext c
  rw [Election.mem_votersWith, Election.mem_votersWith]
  refine and_congr_right fun _ => exists_congr fun v => and_congr_right fun hv => ?_
  have hd : (fameRecord (election G members t) t.count r v).decided = true := hdec c v hv
  rw [hd, Bool.true_and]
  exact Iff.rfl

open Classical in
theorem receives_computes (hG : ParentsFirst G) (h : t.Stacked) (x : String)
    (r : Nat) : Computes (CacheOk G)
      (receives (passCtx G members) t (fameTable G members t) x r)
      (decide (Receives (election G members t) t.count x r)) := by
  have hq : (election G members t).Quorate := election_quorate
  unfold receives
  rw [fameState_eq G members h r]
  dsimp only
  split
  · rename_i hcond
    have hdec := (all_decided_iff h r).1 hcond.2
    refine Yields.mono (seenBySupermajority_computes hG _ x) ?_
    rintro _ rfl
    rw [decide_eq_decide, famousWitnesses_eq G members h,
      seenBy_card G members h r x fun v => (fameRecord (election G members t) t.count r v).decided &&
        (fameRecord (election G members t) t.count r v).famous, votersWith_famous hdec]
    constructor
    · intro hle; exact .inl ⟨hdec, hle⟩
    · rintro (⟨-, hle⟩ | ⟨hund, hle⟩)
      · exact hle
      · obtain ⟨c, v, hv, -⟩ := votersWith_pos hq hle
        exact absurd (hdec c v hv) (hund c v hv)
  · rename_i hcond
    split
    · rename_i hpart
      refine Yields.pure ?_
      symm
      rw [decide_eq_false_iff_not]
      rintro (⟨hdec, -⟩ | ⟨hund, -⟩)
      · exact hcond ⟨hpart.1, (all_decided_iff h r).2 hdec⟩
      · obtain ⟨c, w, hw, hd⟩ := (any_decided_iff h r).1 hpart.2
        exact hund c w hw hd
    · rename_i hnone
      have hund : ∀ c w, (election G members t).wit r c = some w →
          ¬ Decided (election G members t) t.count r w := by
        intro c w hw hd
        refine hnone ⟨fun hn => no_witness_of_nil h r hn c w hw, (any_decided_iff h r).2 ⟨c, w, hw, hd⟩⟩
      refine Yields.mono (seenBySupermajority_computes hG _ x) ?_
      rintro _ rfl
      have hcard := seenBy_card G members h r x fun _ => true
      simp only [List.filter_true, true_and] at hcard
      rw [decide_eq_decide, hcard]
      constructor
      · intro hle; exact .inr ⟨hund, hle⟩
      · rintro (⟨hdec, hle⟩ | ⟨-, hle⟩)
        · obtain ⟨c, v, hv, -⟩ := votersWith_pos hq hle
          exact absurd (hdec c v hv) (hund c v hv)
        · exact hle

theorem roundReceived_computes (hG : ParentsFirst G) (h : t.Stacked) (x : String) :
    Computes (CacheOk G) (roundReceived (passCtx G members) t (fameTable G members t) x)
      (received (election G members t) t.count x) := by
  unfold roundReceived received
  rw [h.ordered]
  exact Computes.firstM fun r _ => receives_computes hG h x r

/-! ## The pass -/

section States
variable (G members t)

/-- The sort keys of a pass: received round and timestamp, a missing
timestamp last. -/
noncomputable def sortKeys (pathMeta : Dict String (List Hop)) : SortKeys := fun x =>
  ((received (election G members t) t.count x).map Int.ofNat,
    (consensusTimestamp x members (supermajorityThreshold members.length) pathMeta).getD .posInf)

noncomputable def resolvedOf (pathMeta : Dict String (List Hop)) :
    Dict String (Option Int × Option Flt) :=
  G.map fun e => (e.id, (received (election G members t) t.count e.id).map Int.ofNat,
    consensusTimestamp e.id members (supermajorityThreshold members.length) pathMeta)

noncomputable def stateOf (pathMeta : Dict String (List Hop)) (e : Event) : ConsensusState :=
  consensusState t (fameTable G members t) e (received (election G members t) t.count e.id)
    (consensusTimestamp e.id members (supermajorityThreshold members.length) pathMeta)

end States

theorem orderKey_resolvedOf {pathMeta : Dict String (List Hop)} {e : Event} (he : e ∈ G) (i : Nat) :
    orderKey (resolvedOf G members t pathMeta) i e =
      ⟨(sortKeys G members t pathMeta e.id).1, (sortKeys G members t pathMeta e.id).2, e.id, i⟩ := by
  have hget : Dict.get (resolvedOf G members t pathMeta) e.id =
      some ((received (election G members t) t.count e.id).map Int.ofNat,
        consensusTimestamp e.id members (supermajorityThreshold members.length) pathMeta) := by
    have hmap : resolvedOf G members t pathMeta = (ids G).map fun x =>
        (x, (received (election G members t) t.count x).map Int.ofNat,
          consensusTimestamp x members (supermajorityThreshold members.length) pathMeta) := by
      unfold resolvedOf ids
      rw [List.map_map]; rfl
    rw [hmap, Dict.get_map_key, if_pos (List.mem_map_of_mem he)]
  unfold orderKey
  rw [hget]
  rfl

/-- A pass after a round loop whose table has the property `P` and is stacked:
the events in `total_order`, each with its state. -/
theorem recomputePass_of_rounds {P : RoundTable → Prop} (hG : ParentsFirst G)
    (hrounds : Yields (CacheOk G) (loopM (roundStep (passCtx G members)) {} G) P)
    (hP : ∀ t, P t → t.Stacked) (pathMeta : Dict String (List Hop)) :
    Yields (CacheOk G) (recomputePass (passCtx G members) G pathMeta) fun states =>
      ∃ t, P t ∧ states = (totalOrder G (resolvedOf G members t pathMeta)).map
        (stateOf G members t pathMeta) := by
  unfold recomputePass
  refine Yields.bind hrounds fun t ht => ?_
  have h := hP t ht
  refine Yields.bind (fameDecisions_computes hG h) ?_
  rintro _ rfl
  refine Yields.bind (P := fun res => res = resolvedOf G members t pathMeta) ?_ ?_
  · unfold resolvedOf
    rw [← List.filterMap_eq_map']
    exact Computes.collectM fun e _ =>
      (roundReceived_computes hG h e.id).bind (Computes.pure _)
  · rintro _ rfl
    have hperm := totalOrder_perm G (resolvedOf G members t pathMeta)
    have hn := (hperm.map Event.id).nodup_iff.2 hG.nodup
    have hsort := insertionSort_index hperm hn
    refine Yields.mono (Computes.collectM (g := fun e => some (stateOf G members t pathMeta e)) ?_) ?_
    · intro e _
      exact (roundReceived_computes hG h e.id).bind (Computes.pure _)
    · rintro _ rfl
      refine ⟨t, ht, ?_⟩
      rw [List.filterMap_eq_map', hsort]

/-- `recompute` runs the pass with an empty cache. -/
theorem recompute_of_run {engine : ConsensusEngine} {membership : List MembershipEntry}
    {pathMeta : Dict String (List Hop)} {states : List ConsensusState} {cache : AncestorCache}
    (hrun : (recomputePass (passCtx G (engine.normalizeMembership membership)) G pathMeta).run [] =
      some (states, cache)) : engine.recompute G membership pathMeta = some states := by
  unfold ConsensusEngine.recompute
  rw [StateT.run'_eq]
  exact congrArg (Functor.map Prod.fst) hrun

/-- **The pass.** On a list with the parents first `recompute` returns: the
events in `total_order`, each with its state. -/
theorem recompute_listed (hG : ParentsFirst G) (engine : ConsensusEngine)
    (membership : List MembershipEntry) (pathMeta : Dict String (List Hop)) :
    ∃ t, ListInv G (engine.normalizeMembership membership) G t ∧
      engine.recompute G membership pathMeta =
        some ((totalOrder G (resolvedOf G (engine.normalizeMembership membership) t pathMeta)).map
          (stateOf G (engine.normalizeMembership membership) t pathMeta)) := by
  obtain ⟨states, cache, hrun, ⟨t, h, rfl⟩, -⟩ :=
    recomputePass_of_rounds hG (listing_yields (engine.normalizeMembership membership) hG)
      (fun t h => h.stacked hG) pathMeta [] cacheOk_nil
  exact ⟨t, h, recompute_of_run hrun⟩

theorem recompute_eq (hG : ParentsFirst G) (hf : ForkFree G) (engine : ConsensusEngine)
    (membership : List MembershipEntry) (pathMeta : Dict String (List Hop)) :
    ∃ t, TableInv G (engine.normalizeMembership membership) G t ∧
      engine.recompute G membership pathMeta =
        some ((totalOrder G (resolvedOf G (engine.normalizeMembership membership) t pathMeta)).map
          (stateOf G (engine.normalizeMembership membership) t pathMeta)) := by
  obtain ⟨t, h, hrun⟩ := recompute_listed hG engine membership pathMeta
  exact ⟨t, h.tableInv hG hf, hrun⟩

end Mdrj.L2
