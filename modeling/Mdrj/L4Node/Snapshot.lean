import Mdrj.L2Consensus.OrderFree
import Mdrj.L2Consensus.RoundLaws
import Mdrj.L2Consensus.Tosses
import Mdrj.L4Node.Node

/-!
# The finalized prefix

`_consensus_snapshot_sync` reads the stored consensus columns back, orders
the events and cuts the last `CONSENSUS_FINALITY_MARGIN` rounds off. For
growing stores the finalized ids only grow at the end (`finalized_prefix`),
provided the tosses of the coin surrogate on the smaller graph stand on the
larger one. Where they do not, because a later voting round reverses a toss,
an event that was finalized leaves the prefix (`finalized_not_prefix`).
-/
namespace Mdrj.L4
open Mdrj.Core Mdrj.L1 Mdrj.L2 Mdrj.L3

/-! ## Reading the columns back -/

section Columns
variable {s : DAGStorage} {states : List ConsensusState}

/-- One row after `replace_consensus_state`. -/
def updateRow (states : List ConsensusState) (row : EventRow) : EventRow :=
  match states.find? fun st => st.eventId = row.event.id with
  | some st => { row with event := DAGStorage.applyState st row.event }
  | none => row

theorem replaceConsensusState_events (hn : (states.map ConsensusState.eventId).Nodup) :
    (s.replaceConsensusState states).events = s.events.map (updateRow states) := by
  unfold DAGStorage.replaceConsensusState
  induction states generalizing s with
  | nil =>
    have hid : updateRow [] = id := rfl
    rw [hid, List.map_id]; rfl
  | cons st states ih =>
    rw [List.map_cons, List.nodup_cons] at hn
    rw [List.foldl_cons, ih hn.2, List.map_map]
    refine List.map_congr_left fun row _ => ?_
    unfold updateRow
    simp only [Function.comp_apply, List.find?_cons]
    by_cases hid : st.eventId = row.event.id
    · have hnone : states.find? (fun st' => st'.eventId = row.event.id) = none := by
        rw [List.find?_eq_none]
        intro st' hst' he
        exact hn.1 (List.mem_map.2 ⟨st', hst', by rw [hid]; exact of_decide_eq_true he⟩)
      have hnone' : states.find? (fun st' => st'.eventId =
          (DAGStorage.applyState st row.event).id) = none := hnone
      simp only [hid, if_true, decide_true]
      rw [hnone']
    · have hid' : ¬ row.event.id = st.eventId := fun e => hid e.symm
      simp only [hid, hid', if_false, decide_false]

theorem updateRow_createdAt (row : EventRow) : (updateRow states row).createdAt = row.createdAt := by
  unfold updateRow; split <;> rfl

theorem updateRow_id (row : EventRow) : (updateRow states row).event.id = row.event.id := by
  unfold updateRow; split <;> rfl

/-- Rows come back in the order of their creation times, which an update
keeps. -/
theorem allEvents_map (f : EventRow → EventRow) (hf : ∀ row, (f row).createdAt = row.createdAt) :
    ({ s with events := s.events.map f } : DAGStorage).allEvents =
      (s.events.insertionSort fun a b => Flt.lt b.createdAt a.createdAt = false).map
        (DAGStorage.loadEvent ∘ f) := by
  unfold DAGStorage.allEvents
  rw [← List.map_insertionSort (r := fun a b : EventRow => Flt.lt b.createdAt a.createdAt = false)
    (s := fun a b : EventRow => Flt.lt b.createdAt a.createdAt = false) f s.events
    (fun a _ b _ => by simp only [hf])]
  rw [List.map_map]

/-- The stored columns of an event are those of its state. -/
theorem allEvents_replace (hn : (states.map ConsensusState.eventId).Nodup) :
    (s.replaceConsensusState states).allEvents =
      (s.events.insertionSort fun a b => Flt.lt b.createdAt a.createdAt = false).map
        (DAGStorage.loadEvent ∘ updateRow states) := by
  have h := allEvents_map (s := s) (updateRow states) updateRow_createdAt
  unfold DAGStorage.allEvents at h ⊢
  rw [replaceConsensusState_events hn]
  exact h

theorem loadEvent_id (row : EventRow) : (DAGStorage.loadEvent row).id = row.event.id := rfl

theorem allEvents_ids (s : DAGStorage) : (ids s.allEvents).Perm s.ids := by
  unfold DAGStorage.allEvents DAGStorage.ids ids
  rw [List.map_map]
  exact (List.perm_insertionSort _ _).map _

/-- The store holds exactly the events of `G`. -/
def Stores (s : DAGStorage) (G : List Event) : Prop := SameEvents s.allEvents G

end Columns

/-! ## The keys a snapshot sorts by -/

section Keys
variable {G : List Event} {members : List String} {t : RoundTable} {s : DAGStorage}

/-- Received round and timestamp as the columns keep them. -/
noncomputable def columnKeys (G : List Event) (members : List String) (t : RoundTable)
    (pathMeta : Dict String (List Hop)) : SortKeys := fun x =>
  let received := received (election G members t) t.count x
  let timestamp := consensusTimestamp x members (supermajorityThreshold members.length) pathMeta
  (received.map Int.ofNat, ((if received.isSome then timestamp else none).bind real).getD .posInf)

theorem columnKeys_ne_nan (pathMeta : Dict String (List Hop)) (x : String) :
    (columnKeys G members t pathMeta x).2 ≠ .nan := by
  show (Option.bind _ real).getD .posInf ≠ .nan
  cases hts : (if (received (election G members t) t.count x).isSome then consensusTimestamp x
      members (supermajorityThreshold members.length) pathMeta else none) with
  | none => exact fun h => by cases h
  | some ts =>
    show (real ts).getD .posInf ≠ .nan
    unfold real
    split
    · exact fun h => by cases h
    · rename_i hne; exact hne

/-- A row of the graph is updated with the state of its event. -/
theorem updateRow_stateOf (members : List String) (t : RoundTable) (pathMeta : Dict String (List Hop))
    {row : EventRow} (hx : row.event.id ∈ ids G) :
    ∃ e : Event, e.id = row.event.id ∧
      updateRow ((totalOrder G (resolvedOf G members t pathMeta)).map (stateOf G members t pathMeta)) row =
        { row with event := DAGStorage.applyState (stateOf G members t pathMeta e) row.event } := by
  obtain ⟨e₀, he₀, hid⟩ := List.mem_map.1 hx
  have hmem : stateOf G members t pathMeta e₀ ∈
      (totalOrder G (resolvedOf G members t pathMeta)).map (stateOf G members t pathMeta) :=
    List.mem_map_of_mem ((totalOrder_perm G _).mem_iff.2 he₀)
  cases hfind : ((totalOrder G (resolvedOf G members t pathMeta)).map (stateOf G members t pathMeta)).find?
      fun st => st.eventId = row.event.id with
  | none =>
    rw [List.find?_eq_none] at hfind
    exact absurd (decide_eq_true (show (stateOf G members t pathMeta e₀).eventId = _ from hid))
      (hfind _ hmem)
  | some st =>
    have hsid : st.eventId = row.event.id := by simpa using List.find?_some hfind
    obtain ⟨e, -, rfl⟩ := List.mem_map.1 (List.mem_of_find?_eq_some hfind)
    refine ⟨e, hsid, ?_⟩
    unfold updateRow
    rw [hfind]

theorem stored_events (members : List String) (t : RoundTable) (hG : ParentsFirst G) (hs : Stores s G) (pathMeta : Dict String (List Hop)) :
    let states := (totalOrder G (resolvedOf G members t pathMeta)).map (stateOf G members t pathMeta)
    let events := (s.replaceConsensusState states).allEvents
    (ids events).Perm (ids G) ∧ ∀ e ∈ events, e.roundReceived = (columnKeys G members t pathMeta e.id).1 ∧
      e.consensusTs.getD .posInf = (columnKeys G members t pathMeta e.id).2 := by
  intro states events
  have hperm := totalOrder_perm G (resolvedOf G members t pathMeta)
  have hids : states.map ConsensusState.eventId =
      (totalOrder G (resolvedOf G members t pathMeta)).map Event.id := by
    show ((totalOrder G _).map _).map _ = _
    rw [List.map_map]; rfl
  have hn : (states.map ConsensusState.eventId).Nodup := by
    rw [hids]
    exact (hperm.map Event.id).nodup_iff.2 hG.nodup
  have heq : events = _ := allEvents_replace (s := s) hn
  refine ⟨?_, fun e he => ?_⟩
  · rw [heq]
    have h1 : ids ((s.events.insertionSort fun a b => Flt.lt b.createdAt a.createdAt = false).map
        (DAGStorage.loadEvent ∘ updateRow states)) = ids s.allEvents := by
      unfold ids DAGStorage.allEvents
      rw [List.map_map, List.map_map]
      refine List.map_congr_left fun row _ => ?_
      simp only [Function.comp_apply, loadEvent_id, updateRow_id]
    rw [h1]
    exact hs.ids_perm
  · rw [heq] at he
    obtain ⟨row, hrow, rfl⟩ := List.mem_map.1 he
    have hx : row.event.id ∈ ids G := by
      refine hs.ids_perm.mem_iff.1 (List.mem_map.2 ⟨DAGStorage.loadEvent row, ?_, rfl⟩)
      exact List.mem_map_of_mem hrow
    obtain ⟨e, hid, hup⟩ := updateRow_stateOf members t pathMeta hx
    have hid' : ((DAGStorage.loadEvent ∘ updateRow states) row).id = e.id := by
      rw [Function.comp_apply, loadEvent_id, updateRow_id]
      exact hid.symm
    rw [hid', Function.comp_apply, show updateRow states row = _ from hup]
    exact ⟨rfl, rfl⟩

end Keys

/-! ## The finalized ids -/

/-- At or below a round; an event not received is not. -/
def upTo (K : SortKeys) (cutoff : Int) (x : String) : Bool :=
  match (K x).1 with
  | none => false
  | some rr => rr ≤ cutoff

theorem finalizedIds_eq {events : List Event} {K : SortKeys} (hn : (ids events).Nodup)
    (hK : ∀ e ∈ events, e.roundReceived = (K e.id).1 ∧ e.consensusTs.getD .posInf = (K e.id).2)
    (hnan : ∀ x, (K x).2 ≠ .nan) :
    ∃ order : List String, order.Perm (ids events) ∧
      order.Pairwise (fun x y => OrderKey.lt (keyOf K x) (keyOf K y) = true) ∧
      Node.finalizedIds events = match (order.filterMap fun x => (K x).1).max? with
        | none => []
        | some newest => order.filter (upTo K (newest - Node.consensusFinalityMargin)) := by
  have hperm := totalOrder_perm events []
  have hp : (totalOrder events []).Pairwise fun a b =>
      OrderKey.lt (keyOf K a.id) (keyOf K b.id) = true := totalOrder_pairwise hn
    (fun e he i => by
      obtain ⟨h1, h2⟩ := hK e he
      unfold orderKey
      simp only [Dict.get_nil, Option.getD_none, h1, h2]) fun e _ => hnan e.id
  have hmem : ∀ e ∈ totalOrder events [], e.roundReceived = (K e.id).1 := fun e he =>
    (hK e (hperm.mem_iff.1 he)).1
  refine ⟨ids (totalOrder events []), hperm.map _, List.pairwise_map.2 hp, ?_⟩
  have hrr : (totalOrder events []).filterMap Event.roundReceived =
      (ids (totalOrder events [])).filterMap fun x => (K x).1 := by
    unfold ids
    rw [List.filterMap_map]
    exact List.filterMap_congr fun e he => hmem e he
  unfold Node.finalizedIds
  dsimp only
  rw [hrr]
  cases ((ids (totalOrder events [])).filterMap fun x => (K x).1).max? with
  | none => rfl
  | some newest =>
    show (List.filter _ _).map Event.id = List.filter _ ((totalOrder events []).map Event.id)
    rw [List.filter_map]
    congr 1
    refine List.filter_congr fun e he => ?_
    cases hr : (K e.id).1 <;> simp [upTo, hmem e he, hr]

section Cut
variable {K K' : SortKeys} {c c' : Int} {x y : String}

theorem upTo_iff : upTo K c x = true ↔ ∃ rr, (K x).1 = some rr ∧ rr ≤ c := by
  unfold upTo
  cases (K x).1 <;> simp

theorem upTo_mono (hc : c ≤ c') (h : upTo K c x = true) : upTo K c' x = true := by
  obtain ⟨rr, hrr, hle⟩ := upTo_iff.1 h
  exact upTo_iff.2 ⟨rr, hrr, hle.trans hc⟩

/-- What sorts before an event below the cut is below the cut. -/
theorem upTo_of_lt (hlt : OrderKey.lt (keyOf K x) (keyOf K y) = true) (h : upTo K c y = true) :
    upTo K c x = true := by
  obtain ⟨rr, hrr, hle⟩ := upTo_iff.1 h
  rw [OrderKey.lt_iff] at hlt
  change rrLt (K x).1 (K y).1 ∨ (K x).1 = (K y).1 ∧ _ at hlt
  rw [hrr] at hlt
  rcases hlt with hlt | ⟨heq, -⟩
  · cases hx : (K x).1 with
    | none => rw [hx] at hlt; exact hlt.elim
    | some rx =>
      rw [hx] at hlt
      have hlt : rx < rr := hlt
      exact upTo_iff.2 ⟨rx, hx, by omega⟩
  · exact upTo_iff.2 ⟨rr, heq, hle⟩

theorem keyOf_asymm (h : OrderKey.lt (keyOf K x) (keyOf K y) = true)
    (h' : OrderKey.lt (keyOf K y) (keyOf K x) = true) : x = y := by
  rw [OrderKey.lt_asymm h] at h'; cases h'

/-- Two orders with the same ids and keys up to `c` and cuts `c ≤ c'`. -/
theorem cut_prefix {order order' : List String} (hn : order.Nodup) (hn' : order'.Nodup)
    (hp : order.Pairwise fun x y => OrderKey.lt (keyOf K x) (keyOf K y) = true)
    (hp' : order'.Pairwise fun x y => OrderKey.lt (keyOf K' x) (keyOf K' y) = true)
    (hmem : ∀ x, (x ∈ order ∧ upTo K c x = true) ↔ (x ∈ order' ∧ upTo K' c x = true))
    (hkey : ∀ x ∈ order, upTo K c x = true → K x = K' x) (hc : c ≤ c') :
    order.filter (upTo K c) <+: order'.filter (upTo K' c') := by
  have heq : order.filter (upTo K c) = order'.filter (upTo K' c) := by
    have hperm : (order.filter (upTo K c)).Perm (order'.filter (upTo K' c)) := by
      refine (List.perm_ext_iff_of_nodup (hn.filter _) (hn'.filter _)).2 fun x => ?_
      rw [List.mem_filter, List.mem_filter]
      exact hmem x
    refine hperm.eq_of_pairwise (fun x y _ _ hxy hyx => keyOf_asymm hxy hyx)
      ((hp.sublist List.filter_sublist).imp_of_mem ?_) (hp'.sublist List.filter_sublist)
    intro x y hx hy hlt
    rw [List.mem_filter] at hx hy
    unfold keyOf at hlt ⊢
    rw [← hkey x hx.1 hx.2, ← hkey y hy.1 hy.2]
    exact hlt
  rw [heq]
  exact filter_prefix hp' (fun x _ h => upTo_mono hc h) fun x _ y _ hlt h => upTo_of_lt hlt h

end Cut

/-! ## Growing stores -/

section Growing
variable {G G' : List Event} {members : List String} {t t' : RoundTable}

theorem view_growth (hv : View G G') (hG : ParentsFirst G) (hG' : ParentsFirst G')
    (h : TableInv G members G t) (h' : TableInv G' members G' t') :
    Growth (election G members t) (election G' members t') t.count t'.count (· ∈ ids G)
      (· ∈ ids G') where
  ext := hv.election_extends hG hG' h h'
  small := h.graded hG
  large := h'.graded hG'
  closed := fun hw hs hx => hv.mem_of_sees hG'.nodup ((h.wits _ _ _).1 hw).1 hs hx
  voter := fun hw => ((h'.wits _ _ _).1 hw).1

theorem columnKeys_eq {pathMeta pathMeta' : Dict String (List Hop)} {x : String}
    (hpm : Dict.get pathMeta x = Dict.get pathMeta' x)
    (hrr : received (election G members t) t.count x =
      received (election G' members t') t'.count x) :
    columnKeys G members t pathMeta x = columnKeys G' members t' pathMeta' x := by
  unfold columnKeys consensusTimestamp
  rw [hrr, hpm]

theorem columnKeys_fst {pathMeta : Dict String (List Hop)} {x : String} {rr : Int} :
    (columnKeys G members t pathMeta x).1 = some rr ↔
      ∃ r : Nat, received (election G members t) t.count x = some r ∧ (r : Int) = rr := by
  show Option.map Int.ofNat _ = some rr ↔ _
  rw [Option.map_eq_some_iff]
  rfl

/-- The newest received round. -/
theorem max_received {order : List String} {K : SortKeys} {newest : Int}
    (h : (order.filterMap fun x => (K x).1).max? = some newest) :
    (∃ x ∈ order, (K x).1 = some newest) ∧
      ∀ x ∈ order, ∀ rr, (K x).1 = some rr → rr ≤ newest := by
  obtain ⟨hmem, hmax⟩ := List.max?_eq_some_iff.1 h
  refine ⟨?_, fun x hx rr hrr => hmax rr ?_⟩
  · obtain ⟨x, hx, hrr⟩ := List.mem_filterMap.1 hmem
    exact ⟨x, hx, hrr⟩
  · exact List.mem_filterMap.2 ⟨x, hx, hrr⟩

theorem exists_max_received {order : List String} {K : SortKeys} {x : String} {rr : Int}
    (hx : x ∈ order) (hrr : (K x).1 = some rr) :
    ∃ newest, (order.filterMap fun x => (K x).1).max? = some newest ∧ rr ≤ newest := by
  cases hmax : (order.filterMap fun x => (K x).1).max? with
  | none =>
    rw [List.max?_eq_none_iff, List.filterMap_eq_nil_iff] at hmax
    rw [hmax x hx] at hrr
    cases hrr
  | some newest => exact ⟨newest, rfl, (max_received hmax).2 x hx rr hrr⟩

theorem upTo_columnKeys {pathMeta : Dict String (List Hop)} {c : Int} {x : String} :
    upTo (columnKeys G members t pathMeta) c x = true ↔
      ∃ r : Nat, received (election G members t) t.count x = some r ∧ (r : Int) ≤ c := by
  rw [upTo_iff]
  constructor
  · intro h
    obtain ⟨rr, hrr, hle⟩ := h
    obtain ⟨r, hr, rfl⟩ := columnKeys_fst.1 hrr
    exact ⟨r, hr, hle⟩
  · intro h
    obtain ⟨r, hr, hle⟩ := h
    exact ⟨r, columnKeys_fst.2 ⟨r, hr, rfl⟩, hle⟩

end Growing

/-- What the states of two passes have to show for the tosses to be kept. -/
def TossesStand (states states' : List ConsensusState) : Prop :=
  ∀ st ∈ states, ∀ st' ∈ states', st'.eventId = st.eventId →
    (st.fameDecisionKind = .coinSurrogate → st'.fameDecided = true ∧ st'.isFamousWitness = st.isFamousWitness) ∧
    (st'.fameDecisionKind = .coinSurrogate → st.fameDecisionKind = .coinSurrogate)

instance (states states' : List ConsensusState) : Decidable (TossesStand states states') :=
  inferInstanceAs (Decidable (∀ st ∈ states, ∀ st' ∈ states', st'.eventId = st.eventId → _ ∧ _))

theorem tossesKept_of_states {G G' : List Event} (hf : ForkFree G) (hf' : ForkFree G') (hv : View G G')
    (hG : ParentsFirst G) (hG' : ParentsFirst G') {engine engine' : ConsensusEngine}
    {membership : List MembershipEntry} (hm : SameMembers engine engine' membership)
    {pathMeta pathMeta' : Dict String (List Hop)} {states states' : List ConsensusState}
    (hr : engine.recompute G membership pathMeta = some states)
    (hr' : engine'.recompute G' membership pathMeta' = some states') (hstand : TossesStand states states') :
    TossesKept (voting G (engine.normalizeMembership membership))
      (voting G' (engine.normalizeMembership membership)) := by
  obtain ⟨t, _, P, hrun⟩ := recompute_passOn hG engine membership pathMeta
  obtain ⟨t', _, P', hrun'⟩ := recompute_passOn hG' engine' membership pathMeta'
  obtain rfl := Option.some.inj (hr.symm.trans hrun)
  obtain rfl := Option.some.inj (hr'.symm.trans hrun')
  rw [← hm.normalize_eq] at P'
  have h := P.table.tableInv hG hf
  have h' := P'.table.tableInv hG' hf'
  rw [← election_eq_voting hG h, ← election_eq_voting hG' h']
  have g := view_growth hv hG hG' h h'
  refine ⟨fun {r c w b} hw htossed hside => ?_, fun {r c w} hw _ htossed => ?_⟩
  all_goals
    obtain ⟨st, hst, rfl⟩ := P.isWitness_of_wit hw
    obtain ⟨st', hst', hid⟩ := P'.isWitness_of_wit (g.ext.wit hw)
    obtain ⟨hdec, hfam, hkind, -⟩ := P.fame_eq hst
    obtain ⟨hdec', hfam', hkind', -⟩ := P'.fame_eq hst'
    rw [hid] at hdec' hfam' hkind'
    obtain ⟨hagain, hfirst⟩ := hstand st hst.mem st' hst'.mem hid
  · rw [g.small.side_iff] at hside
    obtain ⟨hd, hf⟩ := hagain (hkind.trans (g.small.tossed_iff_kind.1 htossed))
    refine g.large.side_iff.2 ⟨hdec'.symm.trans hd, ?_⟩
    rw [← hfam', hf, hfam, hside.2]
  · exact g.small.tossed_iff_kind.2 (hkind.symm.trans (hfirst (hkind'.trans (g.large.tossed_iff_kind.1 htossed))))

/-- **Finalized history is append-only.** The finalized ids of a store are a
prefix of those of a store that it grows into, if the tosses of the voting on
its graph are kept by the voting on the larger one. -/
theorem finalized_prefix {G G' : List Event} (hG : ParentsFirst G) (hG' : ParentsFirst G')
    (hf : ForkFree G) (hf' : ForkFree G') (hv : View G G') {engine engine' : ConsensusEngine}
    {membership : List MembershipEntry} (hm : SameMembers engine engine' membership)
    {pathMeta pathMeta' : Dict String (List Hop)}
    (hpm : ∀ x ∈ ids G, Dict.get pathMeta x = Dict.get pathMeta' x) {s s' : DAGStorage}
    (hs : Stores s G) (hs' : Stores s' G') {states states' : List ConsensusState}
    (hr : engine.recompute G membership pathMeta = some states)
    (hr' : engine'.recompute G' membership pathMeta' = some states')
    (hkept : TossesKept (voting G (engine.normalizeMembership membership))
      (voting G' (engine.normalizeMembership membership))) :
    Node.finalizedIds (s.replaceConsensusState states).allEvents <+:
      Node.finalizedIds (s'.replaceConsensusState states').allEvents := by
  obtain ⟨t, h, hrun⟩ := recompute_eq hG hf engine membership pathMeta
  obtain ⟨t', h', hrun'⟩ := recompute_eq hG' hf' engine' membership pathMeta'
  rw [← hm.normalize_eq] at h' hrun'
  set members := engine.normalizeMembership membership
  obtain rfl := Option.some.inj (hr.symm.trans hrun)
  obtain rfl := Option.some.inj (hr'.symm.trans hrun')
  rw [← election_eq_voting hG h, ← election_eq_voting hG' h'] at hkept
  have g := view_growth hv hG hG' h h'
  have hfame := hkept.fameKept g
  obtain ⟨hids, hkeys⟩ := stored_events members t hG hs pathMeta
  obtain ⟨hids', hkeys'⟩ := stored_events members t' hG' hs' pathMeta'
  obtain ⟨order, hperm, hp, heq⟩ := finalizedIds_eq (hids.nodup_iff.2 hG.nodup) hkeys
    (columnKeys_ne_nan pathMeta)
  obtain ⟨order', hperm', hp', heq'⟩ := finalizedIds_eq (hids'.nodup_iff.2 hG'.nodup) hkeys'
    (columnKeys_ne_nan pathMeta')
  have hmem : ∀ x, x ∈ order ↔ x ∈ ids G := fun x => (hperm.trans hids).mem_iff
  have hmem' : ∀ x, x ∈ order' ↔ x ∈ ids G' := fun x => (hperm'.trans hids').mem_iff
  rw [heq, heq']
  cases hmax : (order.filterMap fun x => (columnKeys G members t pathMeta x).1).max? with
  | none => exact List.nil_prefix
  | some newest =>
    obtain ⟨⟨x, hx, hrx⟩, -⟩ := max_received hmax
    obtain ⟨m, hxm, rfl⟩ := columnKeys_fst.1 hrx
    have hfull := full_of_sees (received_eq_some.1 hxm).2.1.seen
    -- the larger store has a newest round too, and it is not lower
    obtain ⟨y, hy, m', hle, hym⟩ :=
      g.exists_received_ge hfame (hv.mem_ids ((hmem x).1 hx)) hxm
    have hkey : (columnKeys G' members t' pathMeta' y).1 = some (m' : Int) :=
      columnKeys_fst.2 ⟨m', hym, rfl⟩
    obtain ⟨newest', hmax', hge⟩ := exists_max_received ((hmem' y).2 hy) hkey
    rw [hmax']
    -- what lies two rounds below the old newest round is final
    have hlow : ∀ z ∈ ids G', ∀ r : Nat, (r : Int) ≤ m - Node.consensusFinalityMargin →
        (received (election G' members t') t'.count z = some r ↔
          z ∈ ids G ∧ received (election G members t) t.count z = some r) := by
      intro z hz r hr
      unfold Node.consensusFinalityMargin at hr
      exact g.received_low_iff hfame hfull (by omega) hz
    refine cut_prefix (hperm.trans hids |>.nodup_iff.2 hG.nodup)
      (hperm'.trans hids' |>.nodup_iff.2 hG'.nodup) hp hp' ?_ ?_ (by omega)
    · intro z
      rw [hmem, hmem', upTo_columnKeys, upTo_columnKeys]
      constructor
      · rintro ⟨hz, r, hzr, hle⟩
        have hz' := hv.mem_ids hz
        exact ⟨hz', r, (hlow z hz' r hle).2 ⟨hz, hzr⟩, hle⟩
      · rintro ⟨hz', r, hzr, hle⟩
        obtain ⟨hz, hzr⟩ := (hlow z hz' r hle).1 hzr
        exact ⟨hz, r, hzr, hle⟩
    · intro z hz hup
      obtain ⟨r, hzr, hle⟩ := upTo_columnKeys.1 hup
      have hz := (hmem z).1 hz
      refine columnKeys_eq (hpm z hz) ?_
      rw [hzr, (hlow z (hv.mem_ids hz) r hle).2 ⟨hz, hzr⟩]

/-- A store filled with the given events at one time. -/
def storeOf (events : List Event) : DAGStorage :=
  { events := events.map fun e => ⟨e, .fin 0⟩ }

theorem storeOf_stores {events : List Event}
    (h : ∀ e ∈ events, (DAGStorage.loadEvent ⟨e, .fin 0⟩).static = e.static) :
    Stores (storeOf events) events := by
  unfold Stores SameEvents DAGStorage.allEvents
  rw [List.map_map]
  refine ((List.perm_insertionSort _ _).map _).trans ?_
  unfold storeOf
  rw [List.map_map]
  exact List.Perm.of_eq (List.map_congr_left h)

theorem linked_load {id creator : String} (h : creator ≠ "") (parents : List String) :
    (DAGStorage.loadEvent ⟨Event.linked id creator parents, .fin 0⟩).static =
      (Event.linked id creator parents).static := by
  simp [DAGStorage.loadEvent, Event.static, Event.linked, h]

/-- The finalized ids after a pass over the events of a fresh store. -/
def finalizedAfter (engine : ConsensusEngine) (membership : List MembershipEntry)
    (events : List Event) : Option (List String) :=
  (engine.recompute events membership []).map fun states =>
    Node.finalizedIds ((storeOf events).replaceConsensusState states).allEvents

/-- The graph without its last event, and with another one by `b`. -/
def steady : List Event := retossed.take 11 ++ [Event.linked "b2" "b" ["b1", "c2"]]

/-- `b0` is tossed on both graphs and stays famous. -/
theorem finalized_prefix_steady :
    ∃ l l', finalizedAfter ⟨"a"⟩ fourMembers (retossed.take 11) = some l ∧
      finalizedAfter ⟨"b"⟩ fourMembers steady = some l' ∧ l = ["c0", "d0"] ∧ l <+: l' := by
  have hG' : ParentsFirst steady := by decide +kernel
  have hf' : ForkFree steady := forkFree_of_ancestors hG' (by decide +kernel)
  have hv : View (retossed.take 11) steady := ParentsFirst.view_prefix hG'
  have hf := hv.forkFree hG'.nodup hf'
  have hload : ∀ e ∈ steady, (DAGStorage.loadEvent ⟨e, .fin 0⟩).static = e.static := by
    simp [steady, retossed, linked_load]
  have hstand : ((ConsensusEngine.recompute ⟨"a"⟩ (retossed.take 11) fourMembers []).bind fun states =>
      (ConsensusEngine.recompute ⟨"b"⟩ steady fourMembers []).map fun states' =>
        decide (TossesStand states states')) = some true := by decide +kernel
  obtain ⟨states, hr, hstand⟩ := Option.bind_eq_some_iff.1 hstand
  obtain ⟨states', hr', hstand⟩ := Option.map_eq_some_iff.1 hstand
  have hkept : TossesKept (voting (retossed.take 11) ["a", "b", "c", "d"]) (voting steady ["a", "b", "c", "d"]) :=
    tossesKept_of_states hf hf' hv (by decide +kernel) hG' (.inr ⟨by decide, by decide⟩) hr hr'
      (of_decide_eq_true hstand)
  have hfin : finalizedAfter ⟨"a"⟩ fourMembers (retossed.take 11) = some ["c0", "d0"] := by decide +kernel
  have hpre := finalized_prefix (by decide +kernel) hG' hf hf' hv (.inr ⟨by decide, by decide⟩)
    (fun _ _ => rfl) (storeOf_stores fun e he => hload e (List.mem_append_left _ he))
    (storeOf_stores hload) hr hr' hkept
  refine ⟨_, _, by unfold finalizedAfter; rw [hr]; rfl, by unfold finalizedAfter; rw [hr']; rfl, ?_, hpre⟩
  unfold finalizedAfter at hfin
  rw [hr] at hfin
  exact Option.some.inj hfin

/-- A toss repeated: `d0` is finalized, and no longer is when one event is
added. -/
theorem finalized_not_prefix :
    ∃ G G' : List Event, ParentsFirst G ∧ ParentsFirst G' ∧ ForkFree G ∧ ForkFree G' ∧ View G G' ∧
      ∃ l l', finalizedAfter ⟨"a"⟩ fourMembers G = some l ∧
        finalizedAfter ⟨"a"⟩ fourMembers G' = some l' ∧ ¬ l <+: l' :=
  ⟨retossed.take 11, retossed, by decide +kernel, retossed_parentsFirst,
    (retossed_view 11).forkFree retossed_parentsFirst.nodup retossed_forkFree, retossed_forkFree,
    retossed_view 11, ["c0", "d0"], ["c0"], by decide +kernel, by decide +kernel, by decide⟩

end Mdrj.L4
