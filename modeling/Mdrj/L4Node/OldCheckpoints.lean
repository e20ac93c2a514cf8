import Mdrj.L2Consensus.Flat
import Mdrj.L4Node.Freshness

/-!
# Old checkpoints under a new membership

A reconfiguration recomputes the whole history for the new members, and
`verify_checkpoint` hashes what is covered then. The snapshot hash that a
checkpoint keeps is not consulted, so whether checkpoints still match depends
on the members:

* `checkpoints_survive_iff`: with the same set of members every checkpoint
  over fresh columns matches as before. With another set some store has a
  confirmed checkpoint that matched and does not match any more.
* `Probe.watched_length`: the store that shows it. Two events are seen by all
  members and by a coalition; the coalition is a quorum of one of the two
  memberships only.
-/
namespace Mdrj.L4
open Mdrj.Core Mdrj.L1 Mdrj.L2 Mdrj.L3 Relation

/-- The ids consensus counts. -/
def Node.consensusMembers (n : Node) : List String := n.engine.normalizeMembership n.membershipEntries

/-! ## The same members -/

section Same
variable {n n' : Node} {registry : Registry}

theorem verifyCheckpoint_of_storage (h : n'.storage = n.storage) (r : Int) :
    n'.verifyCheckpoint r = n.verifyCheckpoint r := by
  unfold Node.verifyCheckpoint Node.eventsUpToRoundReceived
  rw [h]

/-- Fresh columns are written back as they are. -/
theorem replaceConsensusState_fresh (h : Tables n.storage) {order : List String}
    {states : List ConsensusState} (hsort : n.storage.toposort = .ok order)
    (hrun : n.recomputed order = some states)
    (hrows : ∀ row ∈ n.storage.events, ∃ state ∈ states, Persisted state row) :
    n.storage.replaceConsensusState states = n.storage := by
  obtain ⟨states', hrun', hlinks⟩ := recompute_returns (orderedEvents_parentsFirst h hsort) n.engine
    n.membershipEntries n.pathMetaByEvent
  obtain rfl : states' = states := Option.some.inj (hrun'.symm.trans hrun)
  have hnodup := eventIds_nodup h hsort hlinks
  have hevents : (n.storage.replaceConsensusState states').events = n.storage.events := by
    rw [replaceConsensusState_events hnodup]
    conv_rhs => rw [← List.map_id n.storage.events]
    refine List.map_congr_left fun row hrow => ?_
    obtain ⟨state, hstate, hst, hup⟩ := updateRow_eq h hsort hlinks hrow
    obtain ⟨state', hstate', hpers⟩ := hrows row hrow
    -- the state written is the one the row holds
    obtain rfl : state = state' := List.inj_on_of_nodup_map hnodup hstate hstate'
      ((links_eq hst).1.trans hpers.eventId.symm)
    rw [hup, hpers.columns]
    rfl
  rw [DAGStorage.replaceConsensusState_eq] at hevents ⊢
  dsimp only at hevents
  rw [hevents]

/-- **The same members, the same store.** -/
theorem reconfigure_storage (h : Tables n.storage) (hf : Fresh n)
    (hm : n.consensusMembers.Perm (n.withRegistry registry).consensusMembers) :
    (n.reconfigureConsensusMembership registry).node.storage = n.storage := by
  obtain ⟨order, states, hsort, hrun, hrows⟩ := hf
  have hrun' : (n.withRegistry registry).recomputed order = some states := by
    rw [← hrun]
    exact (recompute_congr (orderedEvents_parentsFirst h hsort) rfl hm n.pathMetaByEvent).symm
  rw [Node.reconfigureConsensusMembership_node]
  by_cases hempty : n.storage.allEvents = []
  · have hempty' : (n.withRegistry registry).storage.allEvents.isEmpty = true := by
      change n.storage.allEvents.isEmpty = true
      rw [hempty]
      rfl
    unfold Node.recomputeConsensus
    rw [if_pos hempty']
    rfl
  · rw [Node.recomputeConsensus_eq (n := n.withRegistry registry) hempty hsort hrun']
    exact replaceConsensusState_fresh h hsort hrun hrows

end Same

/-! ## Received rounds of a fresh store -/

section Received
variable {n : Node}

/-- Every row holds the received round that the election over the store
gives. -/
theorem Fresh.roundReceived (h : Tables n.storage) (hf : Fresh n)
    (hfork : ∀ order, ForkFree (n.orderedEvents order)) :
    ∃ order t, n.storage.toposort = .ok order ∧
      TableInv (n.orderedEvents order) n.consensusMembers (n.orderedEvents order) t ∧
      ∀ row ∈ n.storage.events, row.event.roundReceived =
        (received (election (n.orderedEvents order) n.consensusMembers t) t.count row.event.id).map
          Int.ofNat := by
  obtain ⟨order, states, hsort, hrun, hrows⟩ := hf
  obtain ⟨t, ht, heq⟩ := recompute_eq (orderedEvents_parentsFirst h hsort) (hfork order) n.engine
    n.membershipEntries n.pathMetaByEvent
  refine ⟨order, t, hsort, ht, fun row hrow => ?_⟩
  obtain ⟨state, hstate, hpers⟩ := hrows row hrow
  rw [Option.some.inj (hrun.symm.trans heq)] at hstate
  obtain ⟨e, -, rfl⟩ := List.mem_map.1 hstate
  have hid : e.id = row.event.id := hpers.eventId
  have hcolumn := congrArg Event.roundReceived hpers.columns
  rw [← hcolumn, ← hid]
  rfl

/-- Every stored event has its author's name for an id, and the parents its
name gives. -/
def NamedRows (s : DAGStorage) (par : String → List String) : Prop :=
  ∀ row ∈ s.events, row.event.id ≠ "" ∧ row.event.creator = row.event.id ∧
    row.event.parents = par row.event.id

variable {par : String → List String}

theorem NamedRows.named (h : NamedRows n.storage par) (hn : n.storage.ids.Nodup) (order : List String) :
    Named (n.orderedEvents order) par := by
  intro e he
  obtain ⟨row, hrow, rfl⟩ := mem_orderedEvents hn he
  obtain ⟨hne, hcreator, hparents⟩ := h row hrow
  refine ⟨?_, hparents⟩
  simp [Event.author, DAGStorage.loadEvent, hcreator, hne]

theorem NamedRows.replaceConsensusState {s : DAGStorage} (h : NamedRows s par)
    (states : List ConsensusState) : NamedRows (s.replaceConsensusState states) par := by
  intro row hrow
  obtain ⟨row₀, hrow₀, heq⟩ := DAGStorage.exists_row (DAGStorage.replaceConsensusState_map
    (f := fun row => (row.event.id, row.event.creator, row.event.parents)) (fun _ _ => rfl) s states) hrow
  simp only [Prod.mk.injEq] at heq
  obtain ⟨hid, hcreator, hparents⟩ := heq
  rw [← hid, ← hcreator, ← hparents]
  exact h row₀ hrow₀

/-- The members that see `x` in a store of two layers. -/
def watchers (names members : List String) (par : String → List String) (x : String) : Finset String :=
  members.toFinset.filter fun c => c ∈ names ∧ (c = x ∨ x ∈ par c)

/-- The names a supermajority of the members sees. -/
def watched (names members : List String) (par : String → List String) : List String :=
  names.filter fun x => supermajorityThreshold members.length ≤ (watchers names members par x).card

/-- **What a fresh store of two layers covers.** -/
theorem covered_length (h : Tables n.storage) (hf : Fresh n) (hnamed : NamedRows n.storage par)
    (hne : n.storage.events ≠ [])
    (hout : ∀ x ∈ n.storage.ids, ∀ y ∈ par x, y ∉ n.consensusMembers ∧ par y = []) :
    (n.eventsUpToRoundReceived 0).length = (watched n.storage.ids n.consensusMembers par).length := by
  obtain ⟨order, t, hsort, ht, hrows⟩ := hf.roundReceived h fun order => (hnamed.named h.nodup order).forkFree
  set G := n.orderedEvents order with hG
  have hname : Named G par := hnamed.named h.nodup order
  have hids : ∀ x, x ∈ ids G ↔ x ∈ n.storage.ids := by
    intro x
    rw [hG, ids_orderedEvents h.nodup hsort]
    exact (Kahn.toposort_some h.nodup (toposort_eq_some hsort)).1.mem_iff
  have hflat : Flat G n.consensusMembers := hname.flat fun x hx y hy => (hout x ((hids x).1 hx) y hy).1
  have hGne : G ≠ [] := by
    obtain ⟨row, hrow⟩ := List.exists_mem_of_ne_nil _ hne
    have hmem : row.event.id ∈ ids G := (hids _).2 (List.mem_map_of_mem hrow)
    intro hnil
    rw [hnil] at hmem
    cases hmem
  have hseers : ∀ x, seers G n.consensusMembers x = watchers n.storage.ids n.consensusMembers par x := by
    intro x
    ext c
    rw [hname.mem_seers_of_layers fun x hx y hy => (hout x ((hids x).1 hx) y hy).2, watchers,
      Finset.mem_filter, List.mem_toFinset, hids]
  have hcovered : ∀ row ∈ n.storage.events, covered 0 row = decide (supermajorityThreshold
      n.consensusMembers.length ≤ (watchers n.storage.ids n.consensusMembers par row.event.id).card) := by
    intro row hrow
    unfold covered
    rw [hrows row hrow, hflat.received_eq (orderedEvents_parentsFirst h hsort) ht hGne, hseers]
    split <;> rename_i hcase <;> split at hcase <;> simp_all
  rw [(eventsUpToRoundReceived_perm n 0).length_eq, List.length_map, watched]
  unfold DAGStorage.ids
  rw [List.filter_map, List.length_map, List.filter_congr hcovered]
  rfl

end Received

/-! ## A store that tells memberships apart -/

/-- Whether the coalition is a quorum, and whether the member is alone. -/
def weight (members : List String) (coalition : Finset String) : Nat :=
  (if supermajorityThreshold members.length ≤ (members.toFinset ∩ coalition).card then 1 else 0) +
    if members.length = 1 then 1 else 0

section Weight
variable {A B : List String}

theorem weight_of_ne_one {H : Finset String} (h : A.length ≠ 1) : weight A H =
    if supermajorityThreshold A.length ≤ (A.toFinset ∩ H).card then 1 else 0 := by
  unfold weight
  rw [if_neg h, Nat.add_zero]

theorem weight_empty : weight A ∅ = if A.length = 1 then 1 else 0 := by
  have hpos := threshold_pos A.length
  unfold weight
  rw [Finset.inter_empty, Finset.card_empty, if_neg (by omega), Nat.zero_add]

theorem exists_weight_ne_of_mem (hA : A.Nodup) (hA1 : A.length ≠ 1) (hB1 : B.length ≠ 1) {x : String}
    (hxA : x ∈ A) (hxB : x ∉ B) : ∃ H ⊆ A.toFinset, weight A H ≠ weight B H := by
  have hpos := List.length_pos_of_mem hxA
  have hle : supermajorityThreshold A.length ≤ A.toFinset.card := by
    rw [List.toFinset_card_of_nodup hA]
    unfold supermajorityThreshold
    omega
  obtain ⟨H, hH, hiff⟩ := exists_coalition (B := B.toFinset) (q := supermajorityThreshold B.length)
    (threshold_pos A.length) hle (List.mem_toFinset.2 hxA) (fun h => hxB (List.mem_toFinset.1 h))
  refine ⟨H, hH, fun heq => hiff ?_⟩
  rw [weight_of_ne_one hA1, weight_of_ne_one hB1] at heq
  split at heq <;> split at heq <;> simp_all

/-- Different members, different weights of some coalition. -/
theorem exists_weight_ne (hA : A.Nodup) (hB : B.Nodup) {v : String} (hvA : v ∈ A) (hvB : v ∈ B)
    (hne : ¬ ∀ x, x ∈ A ↔ x ∈ B) :
    ∃ H : Finset String, (∀ c ∈ H, c ∈ A ∨ c ∈ B) ∧ weight A H ≠ weight B H := by
  by_cases hone : A.length = 1 ↔ B.length = 1
  · by_cases hA1 : A.length = 1
    · -- both are `v` alone
      obtain ⟨a, rfl⟩ := List.length_eq_one_iff.1 hA1
      obtain ⟨b, rfl⟩ := List.length_eq_one_iff.1 (hone.1 hA1)
      rw [← List.mem_singleton.1 hvA, ← List.mem_singleton.1 hvB] at hne
      exact absurd (fun _ => Iff.rfl) hne
    · have hB1 : B.length ≠ 1 := fun h => hA1 (hone.2 h)
      obtain ⟨x, hx⟩ := not_forall.1 hne
      by_cases hxA : x ∈ A
      · have hxB : x ∉ B := fun h => hx ⟨fun _ => h, fun _ => hxA⟩
        obtain ⟨H, hH, hw⟩ := exists_weight_ne_of_mem hA hA1 hB1 hxA hxB
        exact ⟨H, fun c hc => .inl (List.mem_toFinset.1 (hH hc)), hw⟩
      · have hxB : x ∈ B := by
          by_contra h
          exact hx ⟨fun h' => absurd h' hxA, fun h' => absurd h' h⟩
        obtain ⟨H, hH, hw⟩ := exists_weight_ne_of_mem hB hB1 hA1 hxB hxA
        exact ⟨H, fun c hc => .inr (List.mem_toFinset.1 (hH hc)), hw.symm⟩
  · refine ⟨∅, fun c hc => absurd hc (Finset.notMem_empty c), fun heq => hone ?_⟩
    rw [weight_empty, weight_empty] at heq
    split at heq <;> split at heq <;> simp_all

end Weight

/-- Two outsiders and a crowd: the events of the whole crowd descend from
`base`, those of the coalition from `test` as well. -/
structure Probe where
  base : String
  test : String
  crowd : List String
  coalition : Finset String
  nodup : (base :: test :: crowd).Nodup
  nonblank : ∀ c ∈ base :: test :: crowd, c ≠ ""
  sub : ∀ c ∈ coalition, c ∈ crowd

namespace Probe
variable (p : Probe)

def names : List String := p.base :: p.test :: p.crowd

def par (c : String) : List String :=
  if c ∈ p.coalition then [p.base, p.test] else if c ∈ p.crowd then [p.base] else []

/-- One event for each name. -/
def storage : DAGStorage where
  events := p.names.map fun c => ⟨Event.linked c c (p.par c), .fin 0⟩
  envelopes := p.names.map fun c => (c, [])
  edges := p.names.flatMap fun c => (p.par c).map fun y => (y, c)

variable {p}

theorem mem_par {c y : String} :
    y ∈ p.par c ↔ c ∈ p.crowd ∧ (y = p.base ∨ y = p.test ∧ c ∈ p.coalition) := by
  have hsub := p.sub c
  unfold par
  split
  · rename_i hc
    simp [hc, hsub hc]
  · rename_i hc
    split
    · rename_i hcrowd
      simp [hc, hcrowd]
    · rename_i hcrowd
      simp [hcrowd]

theorem base_notMem : p.base ∉ p.crowd := fun h =>
  (List.nodup_cons.1 p.nodup).1 (List.mem_cons_of_mem _ h)

theorem test_notMem : p.test ∉ p.crowd := (List.nodup_cons.1 (List.nodup_cons.1 p.nodup).2).1

theorem base_ne_test : p.base ≠ p.test := fun h =>
  (List.nodup_cons.1 p.nodup).1 (h ▸ List.mem_cons_self)

/-- Parents are outsiders, and have no parents. -/
theorem outsider {c y : String} (h : y ∈ p.par c) : y ∉ p.crowd := by
  obtain ⟨-, rfl | ⟨rfl, -⟩⟩ := mem_par.1 h
  · exact base_notMem
  · exact test_notMem

theorem par_outsider {c : String} (h : c ∉ p.crowd) : p.par c = [] :=
  List.eq_nil_iff_forall_not_mem.2 fun _ hy => h (mem_par.1 hy).1

theorem storage_ids : p.storage.ids = p.names := by
  unfold DAGStorage.ids storage
  rw [List.map_map]
  exact List.map_id _

theorem mem_edges {y c : String} : (y, c) ∈ p.storage.edges ↔ c ∈ p.names ∧ y ∈ p.par c := by
  simp [storage]

theorem tables : Tables p.storage := by
  have hkeys : Dict.keys p.storage.envelopes = p.names := by
    unfold Dict.keys storage
    rw [List.map_map]
    exact List.map_id _
  refine ⟨?_, ?_, ?_, ?_⟩
  · rw [storage_ids]
    exact p.nodup
  · intro row hrow y hy
    obtain ⟨c, hc, rfl⟩ := List.mem_map.1 hrow
    exact mem_edges.2 ⟨hc, hy⟩
  · rw [hkeys, storage_ids]
    exact ⟨p.nodup, fun x hx => hx⟩
  · intro e he
    obtain ⟨c, -, rfl⟩ := List.mem_map.1 he
    exact List.nodup_nil

theorem acyclic : Acyclic p.storage := by
  have hsome : (Kahn.toposort p.storage.ids p.storage.edges).isSome := by
    refine (Kahn.toposort_isSome_iff tables.nodup).2 fun x hx => ?_
    -- nothing is a parent and has one
    obtain ⟨y, -, hy⟩ := TransGen.tail'_iff.1 hx
    obtain ⟨z, hz, -⟩ := TransGen.head'_iff.1 hx
    have hxz := (mem_edges.1 hz.1).2
    have hyx := (mem_edges.1 hy.1).2
    rw [par_outsider (outsider hxz)] at hyx
    cases hyx
  obtain ⟨order, horder⟩ := Option.isSome_iff_exists.1 hsome
  refine ⟨order, ?_⟩
  unfold DAGStorage.toposort
  rw [horder]

theorem namedRows : NamedRows p.storage p.par := by
  intro row hrow
  obtain ⟨c, hc, rfl⟩ := List.mem_map.1 hrow
  exact ⟨p.nonblank c hc, rfl, rfl⟩

/-- The store has the rows of the probe, whatever their columns. -/
structure Holds (p : Probe) (s : DAGStorage) : Prop where
  tables : Tables s
  acyclic : Acyclic s
  named : NamedRows s p.par
  ids : s.ids = p.names

theorem storage_holds : p.Holds p.storage := ⟨tables, acyclic, namedRows, storage_ids⟩

theorem Holds.replaceConsensusState {s : DAGStorage} (h : p.Holds s) (states : List ConsensusState) :
    p.Holds (s.replaceConsensusState states) := by
  obtain ⟨order, hsort⟩ := h.acyclic
  exact ⟨h.tables.replaceConsensusState states,
    ⟨order, (replaceConsensusState_toposort s states).trans hsort⟩, h.named.replaceConsensusState states,
    (DAGStorage.replaceConsensusState_ids s states).trans h.ids⟩

theorem Holds.checkpoints {s : DAGStorage} (h : p.Holds s) (table : Dict Int CheckpointRow) :
    p.Holds { s with checkpoints := table } :=
  ⟨⟨h.tables.nodup, h.tables.linked, h.tables.envelopes, h.tables.hops⟩, h.acyclic, h.named, h.ids⟩

/-- What is covered after a recompute depends on the members. -/
theorem Holds.covered {n : Node} (h : p.Holds n.storage) (hsub : ∀ c ∈ n.consensusMembers, c ∈ p.crowd) :
    (n.recomputeConsensus.node.eventsUpToRoundReceived 0).length =
      (watched p.names n.consensusMembers p.par).length := by
  obtain ⟨order, hsort⟩ := h.acyclic
  have hfresh := recomputeConsensus_fresh h.tables hsort
  obtain ⟨states, hnode⟩ := n.recomputeConsensus_node
  rw [hnode] at hfresh ⊢
  have h' := h.replaceConsensusState states
  have hne : (n.storage.replaceConsensusState states).events ≠ [] := by
    intro hnil
    have hids := h'.ids
    unfold DAGStorage.ids at hids
    rw [hnil] at hids
    cases hids
  have hlen := covered_length h'.tables hfresh h'.named hne fun x _ y hy =>
    ⟨fun hm => outsider hy (hsub y hm), par_outsider (outsider hy)⟩
  rw [h'.ids] at hlen
  exact hlen

section Count
variable {members : List String} (hsub : ∀ c ∈ members, c ∈ p.crowd)
include hsub

theorem watchers_base : watchers p.names members p.par p.base = members.toFinset := by
  refine Finset.filter_true_of_mem fun c hc => ?_
  have hc := hsub c (List.mem_toFinset.1 hc)
  exact ⟨List.mem_cons_of_mem _ (List.mem_cons_of_mem _ hc), .inr (mem_par.2 ⟨hc, .inl rfl⟩)⟩

theorem watchers_test : watchers p.names members p.par p.test = members.toFinset ∩ p.coalition := by
  ext c
  rw [watchers, Finset.mem_filter, Finset.mem_inter]
  refine and_congr_right fun hc => ?_
  have hc := hsub c (List.mem_toFinset.1 hc)
  constructor
  · intro hw
    rcases hw.2 with rfl | hpar
    · exact absurd hc test_notMem
    · obtain ⟨-, heq | ⟨-, hcoal⟩⟩ := mem_par.1 hpar
      · exact absurd heq.symm base_ne_test
      · exact hcoal
  · intro hcoal
    exact ⟨List.mem_cons_of_mem _ (List.mem_cons_of_mem _ hc), .inr (mem_par.2 ⟨hc, .inr ⟨rfl, hcoal⟩⟩)⟩

omit hsub in
/-- Of the crowd, everybody is seen by itself only. -/
theorem watchers_crowd {x : String} (hx : x ∈ p.crowd) :
    (watchers p.names members p.par x).card = if x ∈ members then 1 else 0 := by
  have hself : watchers p.names members p.par x = members.toFinset.filter (· = x) := by
    refine Finset.filter_congr fun c _ => ?_
    constructor
    · intro hw
      exact hw.2.elim id fun hpar => absurd hx (outsider hpar)
    · intro heq
      rw [heq]
      exact ⟨List.mem_cons_of_mem _ (List.mem_cons_of_mem _ hx), .inl rfl⟩
  rw [hself, Finset.filter_eq', apply_ite Finset.card]
  simp only [List.mem_toFinset, Finset.card_singleton, Finset.card_empty]

/-- A member's own event counts if it is the only member. -/
theorem watched_crowd (hne : members ≠ []) : (p.crowd.filter fun x =>
    supermajorityThreshold members.length ≤ (watchers p.names members p.par x).card).length =
      if members.length = 1 then 1 else 0 := by
  have hpos := List.length_pos_iff.2 hne
  by_cases hone : members.length = 1
  · obtain ⟨m, rfl⟩ := List.length_eq_one_iff.1 hone
    have hcount : p.crowd.count m = 1 := List.count_eq_one_of_mem
      (List.nodup_cons.1 (List.nodup_cons.1 p.nodup).2).2 (hsub m List.mem_cons_self)
    rw [if_pos hone, ← hcount, List.count_eq_length_filter]
    refine congrArg List.length (List.filter_congr fun x hx => ?_)
    rw [watchers_crowd hx]
    by_cases hm : x = m
    · simp [hm, supermajorityThreshold]
    · simp [hm, supermajorityThreshold]
  · have hthr : 2 ≤ supermajorityThreshold members.length := by
      unfold supermajorityThreshold
      omega
    rw [if_neg hone, List.length_eq_zero_iff, List.filter_eq_nil_iff]
    intro x hx
    rw [watchers_crowd hx, decide_eq_true_eq]
    split
    · omega
    · omega

/-- **What the probe covers.** -/
theorem watched_length (hn : members.Nodup) (hne : members ≠ []) :
    (watched p.names members p.par).length = 1 + weight members p.coalition := by
  have hbase : supermajorityThreshold members.length ≤ (watchers p.names members p.par p.base).card := by
    have hpos := List.length_pos_iff.2 hne
    rw [watchers_base hsub, List.toFinset_card_of_nodup hn]
    unfold supermajorityThreshold
    omega
  have hcrowd := watched_crowd hsub hne
  unfold weight
  rw [← watchers_test hsub, ← Nat.add_assoc]
  change (List.filter (fun x => decide (supermajorityThreshold members.length ≤
    (watchers p.names members p.par x).card)) (p.base :: p.test :: p.crowd)).length = _
  rw [List.filter_cons, if_pos (decide_eq_true hbase), List.filter_cons]
  split <;> rename_i htest
  · rw [if_pos (of_decide_eq_true htest), List.length_cons, List.length_cons, hcrowd]
    omega
  · rw [if_neg (fun h => htest (decide_eq_true h)), List.length_cons, hcrowd]
    omega

end Count

/-- A probe for any two memberships with a member in common. -/
theorem exists_telling {A B : List String} (hA : A.Nodup) (hB : B.Nodup) {v : String} (hvA : v ∈ A)
    (hvB : v ∈ B) (hblank : ∀ x, x ∈ A ∨ x ∈ B → x ≠ "") (hne : ¬ ∀ x, x ∈ A ↔ x ∈ B) :
    ∃ p : Probe, (∀ c, c ∈ p.crowd ↔ c ∈ A ∨ c ∈ B) ∧ 0 < (watched p.names A p.par).length ∧
      (watched p.names B p.par).length ≠ (watched p.names A p.par).length := by
  obtain ⟨H, hH, hw⟩ := exists_weight_ne hA hB hvA hvB hne
  have hcrowd : ∀ c, c ∈ (A ++ B).dedup ↔ c ∈ A ∨ c ∈ B := fun c => by
    rw [List.mem_dedup, List.mem_append]
  obtain ⟨o, ho⟩ := exists_fresh ("" :: (A ++ B).dedup)
  obtain ⟨o', ho'⟩ := exists_fresh ("" :: o :: (A ++ B).dedup)
  simp only [List.mem_cons, not_or] at ho ho'
  refine ⟨⟨o', o, (A ++ B).dedup, H, ?_, ?_, fun c hc => (hcrowd c).2 (hH c hc)⟩, hcrowd, ?_⟩
  · refine List.nodup_cons.2 ⟨?_, List.nodup_cons.2 ⟨ho.2, List.nodup_dedup _⟩⟩
    rw [List.mem_cons]
    exact not_or.2 ho'.2
  · intro c hc
    rcases List.mem_cons.1 hc with rfl | hc
    · exact ho'.1
    · rcases List.mem_cons.1 hc with rfl | hc
      · exact ho.1
      · exact hblank c ((hcrowd c).1 hc)
  · rw [watched_length (fun c hc => (hcrowd c).2 (.inl hc)) hA (List.ne_nil_of_mem hvA),
      watched_length (fun c hc => (hcrowd c).2 (.inr hc)) hB (List.ne_nil_of_mem hvB)]
    dsimp only
    exact ⟨by omega, by omega⟩

end Probe

/-! ## Survival -/

/-- Whatever the node has stored, a confirmed checkpoint over fresh columns
that matches does so after the reconfiguration, and not because two texts
have one digest. -/
def Survives (n : Node) (registry : Registry) : Prop :=
  ∀ (s : DAGStorage) (r : Int) (row : CheckpointRow) (report : Node.CheckpointVerificationReport),
    Tables s → Fresh { n with storage := s } → Dict.get s.checkpoints r = some row →
    row.status = .confirmed → Node.verifyCheckpoint { n with storage := s } r = .ok report →
    report.matchesMerkle = true →
    ∃ report', (Node.reconfigureConsensusMembership { n with storage := s } registry).node.verifyCheckpoint
        r = .ok report' ∧ report'.matchesMerkle = true ∧
      ¬ Collides (merkleText
          ((Node.reconfigureConsensusMembership { n with storage := s } registry).node.eventsUpToRoundReceived r))
        (merkleText (Node.eventsUpToRoundReceived { n with storage := s } r))

section Survival
variable {n : Node} {registry : Registry}

theorem survives_of_same (hm : n.consensusMembers.Perm (n.withRegistry registry).consensusMembers) :
    Survives n registry := by
  intro s r row report htab hf hget hst hv hmatch
  have hstorage : (Node.reconfigureConsensusMembership { n with storage := s } registry).node.storage = s :=
    reconfigure_storage (n := { n with storage := s }) htab hf hm
  refine ⟨report, ?_, hmatch, fun hc => hc.1 ?_⟩
  · rw [← hv]
    exact verifyCheckpoint_of_storage hstorage r
  · unfold Node.eventsUpToRoundReceived
    rw [hstorage]

theorem nodup_consensusMembers (n : Node) : n.consensusMembers.Nodup := nodup_normalizeMembership _ _

theorem nodeId_mem_consensusMembers (n : Node) : n.config.nodeId ∈ n.consensusMembers :=
  (mem_normalizeMembership n.engine).2 (.inr rfl)

theorem ne_empty_of_mem_consensusMembers (hid : n.config.nodeId ≠ "") {x : String}
    (hx : x ∈ n.consensusMembers) : x ≠ "" := by
  rcases (mem_normalizeMembership n.engine).1 hx with hx | rfl
  · exact (mem_memberIds.1 hx).1
  · exact hid

theorem Fresh.withCheckpoints (h : Fresh n) (table : Dict Int CheckpointRow) :
    Fresh (n.withCheckpoints table) := h

/-- A checkpoint over all that is covered survives only if as much is covered
afterwards. -/
theorem Survives.covered_length (hsurv : Survives n registry) {s : DAGStorage} (htab : Tables s)
    (hf : Fresh { n with storage := s })
    (hne : Node.eventsUpToRoundReceived { n with storage := s } 0 ≠ []) :
    ((Node.reconfigureConsensusMembership { n with storage := s } registry).node.eventsUpToRoundReceived 0).length =
      (Node.eventsUpToRoundReceived { n with storage := s } 0).length := by
  set before := Node.eventsUpToRoundReceived { n with storage := s } 0
  set after := (Node.reconfigureConsensusMembership { n with storage := s } registry).node.eventsUpToRoundReceived 0
  -- the same node with the checkpoint
  set table : Dict Int CheckpointRow := [(0, ⟨computeMerkleRoot before, "", [], .confirmed, none, .fin 0⟩)]
  have hafter : (Node.reconfigureConsensusMembership { n with storage := { s with checkpoints := table } }
      registry).node = (Node.reconfigureConsensusMembership { n with storage := s } registry).node.withCheckpoints
        table := by
    rw [Node.reconfigureConsensusMembership_node, Node.reconfigureConsensusMembership_node]
    exact congrArg Call.node (Node.recomputeConsensus_with (Node.withRegistry { n with storage := s } registry) table)
  obtain ⟨report, hv, hm, -⟩ := verifyCheckpoint_iff
    (n := { n with storage := { s with checkpoints := table } }) (r := 0) rfl rfl rfl
  obtain ⟨report', hv', hm', hcol⟩ := hsurv { s with checkpoints := table } 0 _ report
    ⟨htab.nodup, htab.linked, htab.envelopes, htab.hops⟩ (hf.withCheckpoints table) rfl rfl hv (hm.2 ⟨hne, rfl⟩)
  rw [hafter] at hv' hcol
  obtain ⟨report'', hv'', hm'', -⟩ := verifyCheckpoint_iff
    (n := (Node.reconfigureConsensusMembership { n with storage := s } registry).node.withCheckpoints table)
    (r := 0) rfl rfl rfl
  obtain rfl := Except.ok.inj (hv'.symm.trans hv'')
  have hroot : Sha256.hexdigest (merkleText after) = Sha256.hexdigest (merkleText before) := (hm''.1 hm').2
  have htext : merkleText after = merkleText before := by
    by_contra htext
    exact hcol ⟨htext, hroot⟩
  have hlen := congrArg String.length htext
  rw [merkleText_length, merkleText_length] at hlen
  omega

/-- Other members, and some checkpoint is lost. -/
theorem not_survives (hid : n.config.nodeId ≠ "")
    (hne : ¬ ∀ x, x ∈ n.consensusMembers ↔ x ∈ (n.withRegistry registry).consensusMembers) :
    ¬ Survives n registry := by
  intro hsurv
  obtain ⟨p, hcrowd, hpos, hwatched⟩ := Probe.exists_telling (nodup_consensusMembers n)
    (nodup_consensusMembers (n.withRegistry registry)) (nodeId_mem_consensusMembers n)
    (nodeId_mem_consensusMembers (n.withRegistry registry)) (fun x hx =>
      hx.elim (ne_empty_of_mem_consensusMembers hid)
        (ne_empty_of_mem_consensusMembers (n := n.withRegistry registry) hid)) hne
  -- the probe with fresh columns
  have hbefore := Probe.Holds.covered (n := { n with storage := p.storage }) Probe.storage_holds
    fun c hc => (hcrowd c).2 (.inl hc)
  obtain ⟨order, hsort⟩ := Probe.acyclic (p := p)
  have hfresh := recomputeConsensus_fresh (n := { n with storage := p.storage }) Probe.tables hsort
  obtain ⟨states, hnode⟩ := Node.recomputeConsensus_node { n with storage := p.storage }
  rw [hnode] at hbefore hfresh
  have hholds := Probe.storage_holds (p := p).replaceConsensusState states
  -- and under the new members
  have hafter := Probe.Holds.covered (n := Node.withRegistry
    { n with storage := p.storage.replaceConsensusState states } registry) hholds
    fun c hc => (hcrowd c).2 (.inr hc)
  rw [← Node.reconfigureConsensusMembership_node] at hafter
  have hlen := hsurv.covered_length hholds.tables hfresh (List.length_pos_iff.1 (hbefore ▸ hpos))
  exact hwatched (hafter.symm.trans (hlen.trans hbefore))

/-- **Old checkpoints under a new membership.** A registry that leaves the
set of members as it was keeps every checkpoint. One that changes the set of
a node with an id loses a checkpoint of some store. -/
theorem checkpoints_survive_iff (n : Node) (registry : Registry) :
    ((∀ x, x ∈ n.consensusMembers ↔ x ∈ (n.withRegistry registry).consensusMembers) →
      Survives n registry) ∧
    (n.config.nodeId ≠ "" → Survives n registry →
      ∀ x, x ∈ n.consensusMembers ↔ x ∈ (n.withRegistry registry).consensusMembers) := by
  constructor
  · intro hsame
    exact survives_of_same ((List.perm_ext_iff_of_nodup (nodup_consensusMembers n)
      (nodup_consensusMembers (n.withRegistry registry))).2 hsame)
  · intro hid hsurv
    by_contra hne
    exact not_survives hid hne hsurv

end Survival

section Lost

/-- The event of a single member, with its columns. -/
def lone : Event :=
  { Event.linked "a0" "a" [] with round := some 0, roundReceived := some 0, isWitness := true }

/-- A single member whose event a confirmed checkpoint covers. -/
def single : Node where
  config := { nodeId := "a" }
  membership := ⟨[⟨"a", "", "node", true⟩], "h"⟩
  storage := {
    events := [⟨lone, .fin 0⟩]
    envelopes := [("a0", [])]
    checkpoints := [(0, ⟨computeMerkleRoot [lone], "h", [("a", "")], .confirmed, none, .fin 0⟩)] }

theorem single_fresh : Fresh single := by
  refine ⟨["a0"], [⟨"a0", "a", none, none, 0, some 0, true, false, false, none, .pending, false, false, none,
    none, 0, 0, none⟩], rfl, rfl, fun row hrow => ?_⟩
  obtain rfl := List.mem_singleton.1 hrow
  exact ⟨_, List.mem_cons_self, rfl, rfl, rfl, rfl⟩

/-- A second member joins, and the event of the first is no longer received. -/
theorem joining_member_unverifies : ∃ (n : Node) (registry : Registry) (r : Int) (row : CheckpointRow),
    Tables n.storage ∧ Fresh n ∧ Dict.get n.storage.checkpoints r = some row ∧ row.status = .confirmed ∧
      (∃ report, n.verifyCheckpoint r = .ok report ∧ report.matchesMerkle = true) ∧
      ∃ report', (n.reconfigureConsensusMembership registry).node.verifyCheckpoint r = .ok report' ∧
        report'.matchesMerkle = false := by
  refine ⟨single, ⟨[⟨"10.0.0.2:9000", "b", true, "node", false⟩], "node"⟩, 0, _, ?_, single_fresh, rfl, rfl, ?_, ?_⟩
  · exact ⟨by decide, by decide, by decide, by decide⟩
  · obtain ⟨report, hv, hm, -⟩ := verifyCheckpoint_iff (n := single) (r := 0) rfl rfl rfl
    have hev : single.eventsUpToRoundReceived 0 = [lone] := rfl
    refine ⟨report, hv, hm.2 ?_⟩
    rw [hev]
    exact ⟨List.cons_ne_nil _ _, rfl⟩
  · set n' := (single.reconfigureConsensusMembership ⟨[⟨"10.0.0.2:9000", "b", true, "node", false⟩], "node"⟩).node
      with hn'
    have hget : Dict.get n'.storage.checkpoints 0 = Dict.get single.storage.checkpoints 0 := by
      rw [hn', Node.reconfigureConsensusMembership_checkpoints]
    obtain ⟨report', hv, hm, -⟩ := verifyCheckpoint_iff (n := n') (r := 0) rfl (hget.trans rfl) rfl
    have hev : n'.eventsUpToRoundReceived 0 = [] := List.isEmpty_iff.1 (by decide +kernel)
    refine ⟨report', hv, ?_⟩
    cases hmm : report'.matchesMerkle with
    | false => rfl
    | true => exact absurd hev (hm.1 hmm).1

end Lost
end Mdrj.L4
