import Mdrj.L4Node.ConsensusMonitor
import Mdrj.L4Node.Freshness

/-!
# Nodes converge

Two nodes of one cluster take the events in whatever order the network
delivers them, each with its own emissions, recomputes and changes of the
membership in between. Once both were handed the same events with the same
hops, and both have recomputed, their stores hold the same events with the
same columns: `nodes_converge`. So the finalized prefixes and the Merkle roots
are equal; the hashes of the memberships are, as both count the same members
(`Enrolled.snapshotHash_eq`); and the monitor reports nothing.

What a recompute writes depends on the events, their hops and the members
(`loadEvent_fresh`); what a store holds depends on what was handed to it
(`Gathered`, `Has`). Each is proved for one call and then for a run.
-/
namespace Mdrj.L5
open Relation Mdrj.Core Mdrj.L1 Mdrj.L2 Mdrj.L3 Mdrj.L4

/-! ## What a recompute writes -/

/-- The ids consensus counts on the node. -/
def countedMembers (n : Node) : List String := n.engine.normalizeMembership n.membershipEntries

/-! ## The membership -/

/-- The membership is a snapshot of some registry: sorted, one entry for each
id, the node's own among them, and the hash is of these ids. -/
structure Enrolled (n : Node) : Prop where
  own : n.config.nodeId ∈ n.membership.members.map MembershipEntry.nodeId
  plain : ∀ entry ∈ n.membership.members, strip entry.nodeId = entry.nodeId ∧ entry.nodeId ≠ ""
  nodup : (n.membership.members.map MembershipEntry.nodeId).Nodup
  sorted : (n.membership.members.map MembershipEntry.nodeId).Pairwise (· ≤ ·)
  hash : n.membership.snapshotHash =
    Sha256.hexdigest (String.intercalate "::" (n.membership.members.map MembershipEntry.nodeId))

theorem strip_strip (s : String) : strip (strip s) = strip s := by
  have hdrop : ∀ l : List Char, (l.dropWhile isSpace).rdropWhile isSpace =
      ((l.dropWhile isSpace).rdropWhile isSpace).dropWhile isSpace := by
    intro l
    refine (List.dropWhile_eq_self_iff.2 fun hpos => ?_).symm
    -- the first character left is the first one that is no space
    have hne : 0 < (l.dropWhile isSpace).length := hpos.trans_le (List.rdropWhile_prefix isSpace _).length_le
    have hfirst : ((l.dropWhile isSpace).rdropWhile isSpace)[0] = (l.dropWhile isSpace)[0] :=
      (List.rdropWhile_prefix isSpace _).getElem hpos
    rw [hfirst]
    exact List.dropWhile_get_zero_not isSpace l hne
  unfold strip
  rw [String.toList_ofList]
  refine congrArg String.ofList ?_
  change ((((s.toList.dropWhile isSpace).rdropWhile isSpace).dropWhile isSpace).rdropWhile isSpace) =
    (s.toList.dropWhile isSpace).rdropWhile isSpace
  rw [← hdrop, List.rdropWhile_idempotent]

section Enrolled
variable {n n' : Node}

theorem Enrolled.mem_counted (h : Enrolled n) {x : String} :
    x ∈ countedMembers n ↔ x ∈ n.membership.members.map MembershipEntry.nodeId := by
  have hentries : n.membershipEntries = n.membership.members := by
    unfold Node.membershipEntries
    refine (List.filterMap_congr fun entry hentry => ?_).trans List.filterMap_some
    obtain ⟨hstrip, hne⟩ := h.plain entry hentry
    rw [hstrip, if_neg hne]
  have hids : ∀ y, y ∈ memberIds n.membershipEntries ↔ y ∈ n.membership.members.map MembershipEntry.nodeId := by
    intro y
    rw [mem_memberIds, hentries, List.mem_map]
    constructor
    · rintro ⟨-, entry, hentry, rfl⟩
      exact ⟨entry, hentry, (h.plain entry hentry).1.symm⟩
    · rintro ⟨entry, hentry, rfl⟩
      exact ⟨(h.plain entry hentry).2, entry, hentry, (h.plain entry hentry).1⟩
  have hown : n.engine.nodeId ∈ memberIds n.membershipEntries := (hids _).2 h.own
  unfold countedMembers
  rw [normalizeMembership_of_mem n.engine hown]
  exact hids x

/-- Nodes that count the same members have one membership hash. -/
theorem Enrolled.snapshotHash_eq (h : Enrolled n) (h' : Enrolled n')
    (hmembers : (countedMembers n).Perm (countedMembers n')) :
    n.membership.snapshotHash = n'.membership.snapshotHash := by
  have hperm : (n.membership.members.map MembershipEntry.nodeId).Perm
      (n'.membership.members.map MembershipEntry.nodeId) := by
    refine (List.perm_ext_iff_of_nodup h.nodup h'.nodup).2 fun x => ?_
    rw [← h.mem_counted, ← h'.mem_counted]
    exact hmembers.mem_iff
  have hsame := hperm.eq_of_pairwise (fun _ _ _ _ => String.le_antisymm) h.sorted h'.sorted
  rw [h.hash, h'.hash, hsame]

/-- A node whose own id is plain enrolls by any registry. -/
theorem enrolled_withRegistry (hplain : strip n.config.nodeId = n.config.nodeId ∧ n.config.nodeId ≠ "")
    (registry : Registry) : Enrolled (n.withRegistry registry) := by
  have hperm : ((sortedEntries (n.membershipEntriesFromRegistry registry)).map MembershipEntry.nodeId).Perm
      ((n.membershipEntriesFromRegistry registry).map MembershipEntry.nodeId) := (sortedEntries_perm _).map _
  refine ⟨?_, fun entry hentry => ?_, ?_, sorted_sortedEntries _, rfl⟩
  · exact hperm.mem_iff.2 ((mem_membershipEntries n registry _).2 (.inl rfl))
  · have hid := hperm.mem_iff.1 (List.mem_map_of_mem hentry)
    rcases (mem_membershipEntries n registry _).1 hid with hown | ⟨hne, peer, -, -, hstrip⟩
    · rw [hown]
      exact hplain
    · refine ⟨?_, hne⟩
      rw [← hstrip, strip_strip]
  · exact hperm.nodup_iff.2 (nodup_membershipEntries n registry)

/-- Only a new snapshot changes the membership. -/
theorem Enrolled.of_same (h : Enrolled n) (hsame : Node.SameCheckpoints n n') : Enrolled n' := by
  obtain ⟨hown, hplain, hnodup, hsorted, hhash⟩ := h
  rw [← hsame.membership] at hown hplain hnodup hsorted hhash
  rw [← hsame.config] at hown
  exact ⟨hown, hplain, hnodup, hsorted, hhash⟩

theorem Enrolled.plain_own (h : Enrolled n) : strip n.config.nodeId = n.config.nodeId ∧ n.config.nodeId ≠ "" := by
  obtain ⟨entry, hentry, hid⟩ := List.mem_map.1 h.own
  rw [← hid]
  exact h.plain entry hentry

end Enrolled

/-- What is read back of an event apart from its consensus columns. -/
def written (event : Event) : Event := (DAGStorage.loadEvent ⟨event, .fin 0⟩).static

theorem written_eq_id {event event' : Event} (h : written event = written event') : event.id = event'.id :=
  (congrArg Event.id h : (written event).id = (written event').id)

theorem written_parents (event : Event) : (written event).parents = event.parents := rfl

theorem value_ne_empty (kind : FameDecisionKind) : kind.value ≠ "" := by
  cases kind <;> decide

/-- An event that was written with a state is read back with it. -/
theorem loadEvent_persisted {state : ConsensusState} {row : EventRow} (h : Persisted state row) :
    DAGStorage.loadEvent row = DAGStorage.applyState state (written row.event) := by
  obtain ⟨event, createdAt⟩ := row
  have hcolumns := h.columns
  have hself : event.selfParentId = state.selfParentId := h.selfParentId
  have hother : event.otherParentId = state.otherParentId := h.otherParentId
  have hfill : ∀ a b : Option String, (a.or b).or a = a.or b := by
    intro a b
    cases a <;> cases b <;> rfl
  dsimp only at hcolumns ⊢
  rw [← hcolumns]
  unfold written DAGStorage.loadEvent DAGStorage.applyState Event.static
  simp only [hself, hother, hfill, Option.or_self, value_ne_empty, if_false]

section Orders
variable {n : Node} {order : List String}

/-- The engine is given exactly the stored events. -/
theorem orderedEvents_same (h : Tables n.storage) (hsort : n.storage.toposort = .ok order) :
    SameEvents (n.orderedEvents order) n.storage.allEvents := by
  have hG := orderedEvents_parentsFirst h hsort
  have hall : (ids n.storage.allEvents).Nodup := (allEvents_ids _).nodup_iff.2 h.nodup
  obtain ⟨hperm, -⟩ := Kahn.toposort_some h.nodup (toposort_eq_some hsort)
  have hids : (ids (n.orderedEvents order)).Perm (ids n.storage.allEvents) := by
    rw [ids_orderedEvents h.nodup hsort]
    exact hperm.trans (allEvents_ids _).symm
  have hsub : ∀ e ∈ n.orderedEvents order, e ∈ n.storage.allEvents := by
    intro e he
    obtain ⟨row, hrow, rfl⟩ := mem_orderedEvents h.nodup he
    exact List.mem_map_of_mem ((List.mem_insertionSort _).2 hrow)
  have hevents : (n.orderedEvents order).Perm n.storage.allEvents := by
    refine (List.perm_ext_iff_of_nodup hG.nodup.of_map hall.of_map).2 fun e => ⟨hsub e, fun he => ?_⟩
    obtain ⟨e', he', hid⟩ := List.mem_map.1 (hids.mem_iff.2 (List.mem_map_of_mem he))
    obtain rfl := List.inj_on_of_nodup_map hall (hsub e' he') he hid
    exact he'
  exact hevents.map _

/-- The hops a recompute reads for a stored event. -/
theorem get_pathMetaByEvent (n : Node) {x : String} (hx : x ∈ n.storage.ids) :
    Dict.get n.pathMetaByEvent x = some ((Dict.get n.storage.envelopes x).getD []) := by
  have hx' : x ∈ ids n.storage.allEvents := (allEvents_ids _).mem_iff.2 hx
  rw [pathMetaByEvent_eq]
  generalize ids n.storage.allEvents = xs at hx'
  induction xs using List.reverseRecOn with
  | nil => exact absurd hx' List.not_mem_nil
  | append_singleton xs y ih =>
    rw [List.foldl_concat, Dict.get_set]
    split
    · rename_i heq
      rw [heq]
    · rename_i hne
      rw [List.mem_append, List.mem_singleton] at hx'
      exact ih (hx'.resolve_right fun heq => hne heq.symm)

end Orders

/-- Two nodes that hold the same events and hops and count the same members. -/
structure Alike (n n' : Node) : Prop where
  events : SameEvents n.storage.allEvents n'.storage.allEvents
  hops : ∀ x hop, hop ∈ (Dict.get n.storage.envelopes x).getD [] ↔ hop ∈ (Dict.get n'.storage.envelopes x).getD []
  noNan : ∀ x, NoNan ((Dict.get n.storage.envelopes x).getD [])
  members : (countedMembers n).Perm (countedMembers n')

section Alike
variable {n n' : Node}

theorem Alike.timestamps (h : Alike n n') {x : String} (hx : x ∈ n.storage.ids) (hx' : x ∈ n'.storage.ids)
    (members : List String) (quorum : Nat) : consensusTimestamp x members quorum n.pathMetaByEvent =
      consensusTimestamp x members quorum n'.pathMetaByEvent := by
  refine consensusTimestamp_eq_of_hops ?_ ?_ members quorum
  · intro hop
    rw [get_pathMetaByEvent n hx, get_pathMetaByEvent n' hx', Option.getD_some, Option.getD_some]
    exact h.hops x hop
  · rw [get_pathMetaByEvent n hx, Option.getD_some]
    exact h.noNan x

/-- A row of a fresh node has the state the election gives its event. -/
theorem exists_stateOf (htab : Tables n.storage) (hfork : ForkFree n.storage.allEvents) (hfresh : Fresh n) :
    ∃ order t, n.storage.toposort = .ok order ∧
      TableInv (n.orderedEvents order) (countedMembers n) (n.orderedEvents order) t ∧
      ∀ row ∈ n.storage.events, ∃ e ∈ n.orderedEvents order, e.id = row.event.id ∧
        Persisted (stateOf (n.orderedEvents order) (countedMembers n) t n.pathMetaByEvent e) row := by
  obtain ⟨order, states, hsort, hrun, hrows⟩ := hfresh
  have hG := orderedEvents_parentsFirst htab hsort
  have hall : (ids n.storage.allEvents).Nodup := (allEvents_ids _).nodup_iff.2 htab.nodup
  have hforkG := (orderedEvents_same htab hsort).view.forkFree hall hfork
  obtain ⟨t, ht, hrun'⟩ := recompute_eq hG hforkG n.engine n.membershipEntries n.pathMetaByEvent
  refine ⟨order, t, hsort, ht, fun row hrow => ?_⟩
  obtain ⟨state, hstate, hper⟩ := hrows row hrow
  unfold Node.recomputed at hrun
  obtain rfl := Option.some.inj (hrun.symm.trans hrun')
  obtain ⟨e, he, rfl⟩ := List.mem_map.1 hstate
  exact ⟨e, (totalOrder_perm _ _).mem_iff.1 he, hper.eventId, hper⟩

/-- What a fresh node reads back of an event is determined by the events, the
hops and the members. -/
theorem Alike.loadEvent_eq (h : Alike n n') (htab : Tables n.storage) (htab' : Tables n'.storage)
    (hfork : ForkFree n.storage.allEvents) (hfresh : Fresh n) (hfresh' : Fresh n') {row row' : EventRow}
    (hrow : row ∈ n.storage.events) (hrow' : row' ∈ n'.storage.events) (hid : row.event.id = row'.event.id) :
    DAGStorage.loadEvent row = DAGStorage.loadEvent row' := by
  have hall' : (ids n'.storage.allEvents).Nodup := (allEvents_ids _).nodup_iff.2 htab'.nodup
  have hfork' : ForkFree n'.storage.allEvents := by
    have hall : (ids n.storage.allEvents).Nodup := (allEvents_ids _).nodup_iff.2 htab.nodup
    exact h.events.symm.view.forkFree hall hfork
  obtain ⟨order, t, hsort, ht, hstates⟩ := exists_stateOf htab hfork hfresh
  obtain ⟨order', t', hsort', ht', hstates'⟩ := exists_stateOf htab' hfork' hfresh'
  obtain ⟨e, he, heid, hper⟩ := hstates row hrow
  obtain ⟨e', he', heid', hper'⟩ := hstates' row' hrow'
  have hee : e.id = e'.id := heid.trans (hid.trans heid'.symm)
  -- the engines were given one set of events
  have hsame : SameEvents (n.orderedEvents order) (n'.orderedEvents order') :=
    (orderedEvents_same htab hsort).trans (h.events.trans (orderedEvents_same htab' hsort').symm)
  have hts := h.timestamps (x := e.id) (heid ▸ List.mem_map_of_mem hrow)
    (hee.trans heid' ▸ List.mem_map_of_mem hrow') (countedMembers n) (supermajorityThreshold (countedMembers n).length)
  have hstate : stateOf (n.orderedEvents order) (countedMembers n) t n.pathMetaByEvent e =
      stateOf (n'.orderedEvents order') (countedMembers n') t' n'.pathMetaByEvent e' := by
    have hmeta : stateOf (n.orderedEvents order) (countedMembers n) t n.pathMetaByEvent e =
        stateOf (n.orderedEvents order) (countedMembers n) t n'.pathMetaByEvent e := by
      unfold stateOf
      rw [hts]
    rw [hmeta, hsame.stateOf_eq (orderedEvents_parentsFirst htab hsort) (orderedEvents_parentsFirst htab' hsort')
      ht (ht'.perm h.members.symm) n'.pathMetaByEvent he he' hee, stateOf_perm h.members]
  have hwritten : written row.event = written row'.event := by
    have hmem : written row.event ∈ n'.storage.allEvents.map Event.static := by
      refine h.events.mem_iff.1 (List.mem_map_of_mem (f := Event.static) (a := DAGStorage.loadEvent row) ?_)
      exact List.mem_map_of_mem ((List.mem_insertionSort _).2 hrow)
    obtain ⟨e₂, he₂, heq⟩ := List.mem_map.1 hmem
    have hloaded : DAGStorage.loadEvent row' ∈ n'.storage.allEvents :=
      List.mem_map_of_mem ((List.mem_insertionSort _).2 hrow')
    have hid₂ : e₂.id = row'.event.id := (congrArg Event.id heq).trans hid
    obtain rfl : e₂ = DAGStorage.loadEvent row' := List.inj_on_of_nodup_map hall' he₂ hloaded hid₂
    exact heq.symm
  rw [loadEvent_persisted hper, loadEvent_persisted hper', hstate, hwritten]

/-- **Equal columns.** Fresh nodes that hold the same events and hops and
count the same members have the same rows. -/
theorem Alike.allEvents_perm (h : Alike n n') (htab : Tables n.storage) (htab' : Tables n'.storage)
    (hfork : ForkFree n.storage.allEvents) (hfresh : Fresh n) (hfresh' : Fresh n') :
    n.storage.allEvents.Perm n'.storage.allEvents := by
  have hall : (ids n.storage.allEvents).Nodup := (allEvents_ids _).nodup_iff.2 htab.nodup
  have hall' : (ids n'.storage.allEvents).Nodup := (allEvents_ids _).nodup_iff.2 htab'.nodup
  have hids : (ids n.storage.allEvents).Perm (ids n'.storage.allEvents) := h.events.ids_perm
  have hrow : ∀ {m : Node} {e : Event}, e ∈ m.storage.allEvents →
      ∃ row ∈ m.storage.events, DAGStorage.loadEvent row = e := by
    intro m e he
    obtain ⟨row, hrow, heq⟩ := List.mem_map.1 he
    exact ⟨row, (List.mem_insertionSort _).1 hrow, heq⟩
  refine (List.perm_ext_iff_of_nodup hall.of_map hall'.of_map).2 fun e => ⟨fun he => ?_, fun he => ?_⟩
  · obtain ⟨e', he', hid⟩ := List.mem_map.1 (hids.mem_iff.1 (List.mem_map_of_mem he))
    obtain ⟨row, hmem, rfl⟩ := hrow he
    obtain ⟨row', hmem', rfl⟩ := hrow he'
    rw [h.loadEvent_eq htab htab' hfork hfresh hfresh' hmem hmem' hid.symm]
    exact he'
  · obtain ⟨e', he', hid⟩ := List.mem_map.1 (hids.mem_iff.2 (List.mem_map_of_mem he))
    obtain ⟨row', hmem', rfl⟩ := hrow he
    obtain ⟨row, hmem, rfl⟩ := hrow he'
    rw [← h.loadEvent_eq htab htab' hfork hfresh hfresh' hmem hmem' hid]
    exact he'

end Alike

/-! ## What equal columns give -/

section Perm
variable {events events' : List Event}

/-- The keys by the columns of the events. -/
def keysOf (events : List Event) : SortKeys := fun x =>
  match events.find? fun e => e.id = x with
  | some e => (e.roundReceived, e.consensusTs.getD .posInf)
  | none => (none, .posInf)

theorem keysOf_eq (hn : (ids events).Nodup) {e : Event} (he : e ∈ events) :
    keysOf events e.id = (e.roundReceived, e.consensusTs.getD .posInf) := by
  unfold keysOf
  cases hfind : events.find? fun e' => e'.id = e.id with
  | none => exact absurd (decide_eq_true rfl) (List.find?_eq_none.1 hfind e he)
  | some e' =>
    have hid : e'.id = e.id := by simpa using List.find?_some hfind
    rw [eq_of_id hn (List.mem_of_find?_eq_some hfind) he hid]

theorem keysOf_ne_nan (hnan : ∀ e ∈ events, e.consensusTs ≠ some .nan) (x : String) :
    (keysOf events x).2 ≠ .nan := by
  unfold keysOf
  cases hfind : events.find? fun e => e.id = x with
  | none => exact fun h => by cases h
  | some e =>
    show e.consensusTs.getD .posInf ≠ .nan
    have hts := hnan e (List.mem_of_find?_eq_some hfind)
    cases hc : e.consensusTs with
    | none => exact fun h => by cases h
    | some ts => exact fun h => hts (hc.trans (congrArg some h))

/-- The finalized ids do not depend on the order of the rows. -/
theorem finalizedIds_perm (h : events.Perm events') (hn : (ids events).Nodup)
    (hnan : ∀ e ∈ events, e.consensusTs ≠ some .nan) :
    Node.finalizedIds events = Node.finalizedIds events' := by
  have hids : (ids events).Perm (ids events') := h.map _
  have hkeys : ∀ e ∈ events, e.roundReceived = (keysOf events e.id).1 ∧
      e.consensusTs.getD .posInf = (keysOf events e.id).2 := by
    intro e he
    rw [keysOf_eq hn he]
    exact ⟨rfl, rfl⟩
  obtain ⟨order, hperm, hp, heq⟩ := finalizedIds_eq hn hkeys (keysOf_ne_nan hnan)
  obtain ⟨order', hperm', hp', heq'⟩ := finalizedIds_eq (hids.nodup_iff.1 hn)
    (fun e he => hkeys e (h.mem_iff.2 he)) (keysOf_ne_nan hnan)
  have horder : order = order' := List.Perm.eq_of_pairwise (fun x y _ _ hxy hyx => keyOf_asymm hxy hyx) hp hp'
    (hperm.trans (hids.trans hperm'.symm))
  rw [heq, heq', horder]

end Perm

/-- What two nodes agree on whose rows are the same: the finalized ids, every
Merkle root, and that the monitor has nothing to report. -/
structure Agreeing (n n' : Node) : Prop where
  events : n.storage.allEvents.Perm n'.storage.allEvents
  finalized : Node.finalizedIds n.storage.allEvents = Node.finalizedIds n'.storage.allEvents
  roots : ∀ r, computeMerkleRoot (n.eventsUpToRoundReceived r) = computeMerkleRoot (n'.eventsUpToRoundReceived r)
  quiet : ∀ (epoch epoch' : Int) (size size' : Nat) (now now' : Flt),
    (n.consensusSnapshot ⟨epoch, n.membership, size⟩ now).mismatchReasons
      (n'.consensusSnapshot ⟨epoch', n'.membership, size'⟩ now') = []

section Agreeing
variable {n n' : Node}

theorem fresh_ne_nan (hfresh : Fresh n) {e : Event} (he : e ∈ n.storage.allEvents) : e.consensusTs ≠ some .nan := by
  obtain ⟨order, states, -, -, hrows⟩ := hfresh
  obtain ⟨row, hrow, rfl⟩ := List.mem_map.1 he
  obtain ⟨state, -, hper⟩ := hrows row ((List.mem_insertionSort _).1 hrow)
  have hcolumn : state.consensusTs.bind real = row.event.consensusTs := congrArg Event.consensusTs hper.columns
  show row.event.consensusTs ≠ some .nan
  rw [← hcolumn]
  cases state.consensusTs with
  | none => exact fun h => by cases h
  | some ts =>
    show real ts ≠ some .nan
    unfold real
    split
    · exact fun h => by cases h
    · rename_i hne
      exact fun h => hne (Option.some.inj h)

theorem Alike.agreeing (h : Alike n n') (henrolled : Enrolled n) (henrolled' : Enrolled n') (htab : Tables n.storage)
    (htab' : Tables n'.storage) (hfork : ForkFree n.storage.allEvents) (hfresh : Fresh n) (hfresh' : Fresh n') :
    Agreeing n n' := by
  have hperm := h.allEvents_perm htab htab' hfork hfresh hfresh'
  have hall : (ids n.storage.allEvents).Nodup := (allEvents_ids _).nodup_iff.2 htab.nodup
  have hfinal := finalizedIds_perm hperm hall fun e he => fresh_ne_nan hfresh he
  refine ⟨hperm, hfinal, fun r => ?_, fun epoch epoch' size size' now now' => ?_⟩
  · have hcovered : (n.eventsUpToRoundReceived r).Perm (n'.eventsUpToRoundReceived r) := hperm.filter _
    have hnodup : ((n.eventsUpToRoundReceived r).map Event.id).Nodup :=
      hall.sublist (List.filter_sublist.map _)
    unfold computeMerkleRoot
    rw [merkleText_perm hcovered hnodup]
  · rw [ConsensusDigest.mismatchReasons_eq_nil, ConsensusDigest.agrees_iff, consensusSnapshot_hash,
      consensusSnapshot_hash, hfinal]
    exact ⟨rfl, congrArg List.length hfinal.symm, (henrolled.snapshotHash_eq henrolled' h.members).symm⟩

end Agreeing

/-! ## What a store holds -/

/-- The envelopes are of one history: equal ids are of one event, no hop has
the timestamp NaN, and SQLite takes every event. -/
structure OneHistory (envelopes : List Envelope) : Prop where
  written : ∀ e ∈ envelopes, ∀ e' ∈ envelopes, e.event.id = e'.event.id → written e.event = written e'.event
  noNan : ∀ e ∈ envelopes, NoNan e.pathMeta
  accepted : ∀ e ∈ envelopes, DAGStorage.insertError e.event = none

theorem OneHistory.of_subset {envelopes envelopes' : List Envelope} (h : OneHistory envelopes')
    (hsub : ∀ e ∈ envelopes, e ∈ envelopes') : OneHistory envelopes :=
  ⟨fun e he e' he' => h.written e (hsub e he) e' (hsub e' he'), fun e he => h.noNan e (hsub e he),
    fun e he => h.accepted e (hsub e he)⟩

theorem OneHistory.swap {envelopes envelopes' : List Envelope} (h : OneHistory (envelopes ++ envelopes')) :
    OneHistory (envelopes' ++ envelopes) :=
  h.of_subset fun _ he => List.mem_append.2 (List.mem_append.1 he).symm

/-- What a store holds comes from the envelopes. -/
structure Gathered (envelopes : List Envelope) (s : DAGStorage) : Prop where
  rows : ∀ row ∈ s.events, ∃ e ∈ envelopes, written row.event = written e.event
  edges : ∀ p ∈ s.edges, ∃ row ∈ s.events, row.event.id = p.2 ∧ p.1 ∈ row.event.parents
  hops : ∀ x, ∀ hop ∈ (Dict.get s.envelopes x).getD [], ∃ e ∈ envelopes, e.event.id = x ∧ hop ∈ e.pathMeta

/-- The store holds what the envelope says. -/
structure Has (e : Envelope) (s : DAGStorage) : Prop where
  id : e.event.id ∈ s.ids
  hops : ∀ hop ∈ e.pathMeta, hop ∈ (Dict.get s.envelopes e.event.id).getD []

section Store
variable {envelopes : List Envelope} {s s' : DAGStorage} {envelope e : Envelope} {ts : Option Flt} {now : Flt}
  {stored : Bool}

/-- Filling in a row does not show when it is read with its links anyway. -/
theorem written_fillRow {row : EventRow} (h : row.event.id = envelope.event.id →
    written row.event = written envelope.event) :
    written (DAGStorage.fillRow envelope.event ts row).event = written row.event := by
  unfold DAGStorage.fillRow
  split
  · rename_i hfill
    have heq := h hfill.1
    have hself : row.event.selfParentId.or row.event.parents[0]? =
        envelope.event.selfParentId.or envelope.event.parents[0]? := congrArg Event.selfParentId heq
    have hother : row.event.otherParentId.or row.event.parents[1]? =
        envelope.event.otherParentId.or envelope.event.parents[1]? := congrArg Event.otherParentId heq
    have hparents : (written row.event).parents = (written envelope.event).parents := congrArg Event.parents heq
    rw [written_parents, written_parents] at hparents
    have hfilled : ∀ {a b c : Option String}, a.or c = b.or c → (a.or b).or c = a.or c := by
      intro a b c hab
      cases a with
      | some x => rfl
      | none => exact hab.symm
    rw [← hparents] at hself hother
    unfold written DAGStorage.loadEvent Event.static
    simp only [hfilled hself, hfilled hother]
  · rfl

theorem Gathered.hops_merged (h : Gathered envelopes s) (he : envelope ∈ envelopes) (x : String) :
    ∀ hop ∈ (Dict.get (s.mergePathMeta envelope.event.id envelope.pathMeta).envelopes x).getD [],
      ∃ e ∈ envelopes, e.event.id = x ∧ hop ∈ e.pathMeta := by
  intro hop hhop
  rcases (get_mergePathMeta s _ x _ hop).1 hhop with hold | ⟨rfl, hnew⟩
  · exact h.hops x hop hold
  · exact ⟨envelope, he, rfl, hnew⟩

/-- Storing one of the envelopes. -/
theorem Gathered.storeEnvelope (h : Gathered envelopes s) (hone : OneHistory envelopes) (he : envelope ∈ envelopes)
    (hs : s.storeEnvelope envelope ts now = .ok (s', stored)) : Gathered envelopes s' := by
  rcases DAGStorage.storeEnvelope_cases hs with ⟨-, -, rfl⟩ | ⟨-, -, -, rfl⟩
  · refine ⟨fun row hrow => ?_, fun p hp => ?_, h.hops_merged he⟩
    · obtain ⟨row₀, hrow₀, rfl⟩ := List.mem_map.1 hrow
      obtain ⟨e₀, he₀, heq⟩ := h.rows row₀ hrow₀
      refine ⟨e₀, he₀, (written_fillRow fun hid => ?_).trans heq⟩
      exact heq.trans (hone.written e₀ he₀ envelope he ((written_eq_id heq).symm.trans hid))
    · obtain ⟨row, hrow, hid, hpar⟩ := h.edges p hp
      refine ⟨_, List.mem_map_of_mem hrow, (DAGStorage.fillRow_id _ _).trans hid, ?_⟩
      have hparents : (fun row : EventRow => (row.event.id, row.event.parents))
          (DAGStorage.fillRow envelope.event ts row) = (row.event.id, row.event.parents) :=
        DAGStorage.unfilled_parents.fillRow envelope.event row
      rw [(Prod.mk.inj hparents).2]
      exact hpar
  · refine ⟨fun row hrow => ?_, fun p hp => ?_, h.hops_merged he⟩
    · rcases List.mem_append.1 hrow with hold | hnew
      · exact h.rows row hold
      · obtain rfl := List.mem_singleton.1 hnew
        exact ⟨envelope, he, rfl⟩
    · rcases DAGStorage.mem_addEdges.1 hp with hold | ⟨q, hq, rfl⟩
      · obtain ⟨row, hrow, hid, hpar⟩ := h.edges p hold
        exact ⟨row, List.mem_append_left _ hrow, hid, hpar⟩
      · exact ⟨_, List.mem_append_right _ (List.mem_singleton_self _), rfl, hq⟩

theorem Has.storeEnvelope (h : Has e s) (hs : s.storeEnvelope envelope ts now = .ok (s', stored)) : Has e s' := by
  have hid : e.event.id ∈ s'.ids := by
    rcases DAGStorage.storeEnvelope_ids hs with ⟨-, -, hids⟩ | ⟨-, -, hids⟩
    · rw [hids]; exact h.id
    · rw [hids]; exact List.mem_append_left _ h.id
  refine ⟨hid, fun hop hhop => ?_⟩
  have hmerged := (get_mergePathMeta s envelope.event.id e.event.id envelope.pathMeta hop).2 (.inl (h.hops hop hhop))
  rcases DAGStorage.storeEnvelope_cases hs with ⟨-, -, rfl⟩ | ⟨-, -, -, rfl⟩
  · exact hmerged
  · exact hmerged

/-- An envelope that was taken is held. -/
theorem has_of_storeEnvelope (hs : s.storeEnvelope envelope ts now = .ok (s', stored)) : Has envelope s' := by
  have hid : envelope.event.id ∈ s'.ids := by
    rcases DAGStorage.storeEnvelope_ids hs with ⟨hmem, -, hids⟩ | ⟨-, -, hids⟩
    · rw [hids]; exact hmem
    · rw [hids]; exact List.mem_append_right _ (List.mem_singleton_self _)
  refine ⟨hid, fun hop hhop => ?_⟩
  have hmerged := (get_mergePathMeta s envelope.event.id envelope.event.id envelope.pathMeta hop).2 (.inr ⟨rfl, hhop⟩)
  rcases DAGStorage.storeEnvelope_cases hs with ⟨-, -, rfl⟩ | ⟨-, -, -, rfl⟩
  · exact hmerged
  · exact hmerged

end Store

/-! ## One call -/

section Calls
variable {n n' : Node} {envelopes : List Envelope} {e : Envelope}

theorem mem_statics {s : DAGStorage} {w : Event} :
    w ∈ s.allEvents.map Event.static ↔ ∃ row ∈ s.events, written row.event = w := by
  unfold DAGStorage.allEvents
  rw [List.map_map, List.mem_map]
  constructor
  · intro h
    obtain ⟨row, hrow, heq⟩ := h
    exact ⟨row, (List.mem_insertionSort _).1 hrow, heq⟩
  · intro h
    obtain ⟨row, hrow, heq⟩ := h
    exact ⟨row, (List.mem_insertionSort _).2 hrow, heq⟩

/-- A recompute leaves what was written. -/
theorem recompute_statics (h : Tables n.storage) :
    n.recomputeConsensus.node.storage.allEvents.map Event.static = n.storage.allEvents.map Event.static := by
  by_cases hempty : n.storage.allEvents = []
  · have hnode : n.recomputeConsensus.node = n := by
      unfold Node.recomputeConsensus
      rw [if_pos (by simpa using hempty)]
    rw [hnode]
  · cases hsort : n.storage.toposort with
    | error err =>
      have hnode : n.recomputeConsensus.node = n := by
        unfold Node.recomputeConsensus
        rw [if_neg (by simpa using hempty), hsort]
      rw [hnode]
    | ok order =>
      obtain ⟨states, hrun, hlinks⟩ :=
        recompute_returns (orderedEvents_parentsFirst h hsort) n.engine n.membershipEntries n.pathMetaByEvent
      rw [Node.recomputeConsensus_eq hempty hsort hrun]
      exact allEvents_static h hsort hlinks

theorem Gathered.recompute (htab : Tables n.storage) (h : Gathered envelopes n.storage) :
    Gathered envelopes n.recomputeConsensus.node.storage := by
  have hstatics := recompute_statics htab
  obtain ⟨states, hnode⟩ := n.recomputeConsensus_node
  rw [hnode] at hstatics ⊢
  have hedges : (n.storage.replaceConsensusState states).edges = n.storage.edges := by
    rw [DAGStorage.replaceConsensusState_eq]
  have henvelopes : (n.storage.replaceConsensusState states).envelopes = n.storage.envelopes := by
    rw [DAGStorage.replaceConsensusState_eq]
  refine ⟨fun row hrow => ?_, fun p hp => ?_, fun x hop hhop => ?_⟩
  · obtain ⟨row₀, hrow₀, hsame⟩ := mem_statics.1 (hstatics ▸ mem_statics.2 ⟨row, hrow, rfl⟩)
    obtain ⟨e, he, heq⟩ := h.rows row₀ hrow₀
    exact ⟨e, he, hsame.symm.trans heq⟩
  · dsimp only at hp
    rw [hedges] at hp
    obtain ⟨row, hrow, hid, hpar⟩ := h.edges p hp
    obtain ⟨row', hrow', hsame⟩ := mem_statics.1 (hstatics.symm ▸ mem_statics.2 ⟨row, hrow, rfl⟩)
    refine ⟨row', hrow', (written_eq_id hsame).trans hid, ?_⟩
    rw [← written_parents, hsame]
    exact hpar
  · dsimp only at hhop
    rw [henvelopes] at hhop
    exact h.hops x hop hhop

theorem Has.recompute (h : Has e n.storage) : Has e n.recomputeConsensus.node.storage := by
  obtain ⟨states, hnode⟩ := n.recomputeConsensus_node
  rw [hnode]
  refine ⟨?_, fun hop hhop => ?_⟩
  · rw [DAGStorage.replaceConsensusState_ids]
    exact h.id
  · rw [DAGStorage.replaceConsensusState_eq]
    exact h.hops hop hhop

/-- Sound tables that hold nothing but the envelopes. -/
def Holding (envelopes : List Envelope) (n : Node) : Prop := Tables n.storage ∧ Gathered envelopes n.storage

theorem Holding.recompute (h : Holding envelopes n) : Holding envelopes n.recomputeConsensus.node := by
  refine ⟨?_, Gathered.recompute h.1 h.2⟩
  obtain ⟨states, hnode⟩ := n.recomputeConsensus_node
  rw [hnode]
  exact h.1.replaceConsensusState states

theorem Holding.persist (hone : OneHistory envelopes) (he : e ∈ envelopes) (h : Holding envelopes n) (now : Flt) :
    Holding envelopes (n.persistEnvelope e now).node := by
  refine ⟨persistEnvelope_tables h.1 e now, ?_⟩
  unfold Node.persistEnvelope
  split
  · exact h.2
  · rename_i hs
    exact h.2.storeEnvelope hone he hs

theorem Has.persist (h : Has e n.storage) (envelope : Envelope) (now : Flt) :
    Has e (n.persistEnvelope envelope now).node.storage := by
  unfold Node.persistEnvelope
  split
  · exact h
  · rename_i hs
    exact h.storeEnvelope hs

/-- The envelopes a call hands to the store. -/
def handedBy (n : Node) : NodeAction → List Envelope
  | .emit cls payload ts _ pick => [n.nextEnvelope cls payload ts pick]
  | .ingest envelopes => envelopes.map Prod.fst
  | .reconfigure _ => []
  | .retain _ => []

/-- A retention pass finds nothing to delete. -/
def Keeps (n : Node) : NodeAction → Prop
  | .retain now => ∀ row ∈ n.storage.events, n.prunes now row = false
  | .emit .. => True
  | .ingest _ => True
  | .reconfigure _ => True

theorem step_holding (hone : OneHistory envelopes) {a : NodeAction} (hkeeps : Keeps n a)
    (hfrom : ∀ e ∈ handedBy n a, e ∈ envelopes) (h : Holding envelopes n) : Holding envelopes (a.step n) := by
  cases a with
  | emit cls payload ts now pick =>
    have hpersist := Holding.persist (n := { n with anchors := n.anchorIds }) hone
      (hfrom _ (List.mem_singleton_self _)) h now
    exact Node.emitEvent_of_persist (P := Holding envelopes) (fun _ h => h.recompute) (fun _ h => h) hpersist
  | ingest batch =>
    refine Node.ingestEnvelopes_ind (P := Holding envelopes) (Q := fun p => p.1 ∈ envelopes)
      (fun _ p hp h => h.persist hone hp p.2) (fun _ h => h.recompute) (fun p hp => ?_) h
    exact hfrom p.1 (List.mem_map_of_mem hp)
  | reconfigure registry =>
    change Holding envelopes (n.reconfigureConsensusMembership registry).node
    rw [Node.reconfigureConsensusMembership_node]
    exact Holding.recompute (n := n.withRegistry registry) h
  | retain now =>
    change Holding envelopes (n.runRetentionOnce now).node
    rw [runRetentionOnce_idle hkeeps]
    exact h

theorem step_has {a : NodeAction} (hkeeps : Keeps n a) (h : Has e n.storage) : Has e (a.step n).storage := by
  cases a with
  | emit cls payload ts now pick =>
    have hpersist := Has.persist (n := { n with anchors := n.anchorIds }) h
      ⟨n.nextEvent cls payload ts pick, [⟨some n.config.nodeId, some ts⟩]⟩ now
    exact Node.emitEvent_of_persist (P := fun n => Has e n.storage) (fun _ h => h.recompute) (fun _ h => h) hpersist
  | ingest batch =>
    exact Node.ingestEnvelopes_ind (P := fun n => Has e n.storage) (Q := fun _ => True)
      (fun _ p _ h => h.persist p.1 p.2) (fun _ h => h.recompute) (fun _ _ => trivial) h
  | reconfigure registry =>
    change Has e (n.reconfigureConsensusMembership registry).node.storage
    rw [Node.reconfigureConsensusMembership_node]
    exact Has.recompute (n := n.withRegistry registry) h
  | retain now =>
    change Has e (n.runRetentionOnce now).node.storage
    rw [runRetentionOnce_idle hkeeps]
    exact h

theorem step_enrolled (n : Node) (a : NodeAction) (h : Enrolled n) (_ : Keeps n a) : Enrolled (a.step n) := by
  cases a with
  | emit cls payload ts now pick => exact h.of_same (Node.emitEvent_same n cls payload ts now pick)
  | ingest batch => exact h.of_same (Node.ingestEnvelopes_same n batch)
  | reconfigure registry =>
    change Enrolled (n.reconfigureConsensusMembership registry).node
    rw [Node.reconfigureConsensusMembership_node]
    exact (enrolled_withRegistry h.plain_own registry).of_same (Node.recomputeConsensus_same _)
  | retain now => exact h.of_same (Node.runRetentionOnce_same n now)

/-- A batch of which SQLite takes every event is held. -/
theorem ingestLoop_has (batch : List (Envelope × Flt)) : ∀ (n : Node) (newIds : List String),
    (∀ p ∈ batch, DAGStorage.insertError p.1.event = none) → (Has e n.storage ∨ e ∈ batch.map Prod.fst) →
      Has e (Node.ingestLoop n newIds batch).node.storage := by
  induction batch with
  | nil =>
    intro n newIds _ h
    exact h.resolve_right List.not_mem_nil
  | cons p rest ih =>
    intro n newIds hins h
    rw [List.forall_mem_cons] at hins
    have haccepts : ∃ s stored, n.storage.storeEnvelope p.1 p.1.event.consensusTs p.2 = .ok (s, stored) :=
      DAGStorage.storeEnvelope_accepts p.2 (.inr hins.1)
    obtain ⟨s, stored, hs⟩ := haccepts
    unfold Node.ingestLoop Node.persistEnvelope
    rw [hs]
    refine ih _ _ hins.2 ?_
    rcases h with h | h
    · exact .inl (h.storeEnvelope hs)
    · rcases List.mem_cons.1 h with rfl | h
      · exact .inl (has_of_storeEnvelope hs)
      · exact .inr h

/-- What a call hands to the store is held. -/
theorem has_of_handedBy {a : NodeAction} (hins : ∀ e ∈ handedBy n a, DAGStorage.insertError e.event = none)
    (he : e ∈ handedBy n a) : Has e (a.step n).storage := by
  cases a with
  | emit cls payload ts now pick =>
    obtain rfl := List.mem_singleton.1 he
    refine Node.emitEvent_of_persist (P := fun n' => Has (n.nextEnvelope cls payload ts pick) n'.storage)
      (fun _ h => h.recompute) (fun _ h => h) ?_
    have haccepts : ∃ s stored, n.storage.storeEnvelope (n.nextEnvelope cls payload ts pick)
        (n.nextEnvelope cls payload ts pick).event.consensusTs now = .ok (s, stored) :=
      DAGStorage.storeEnvelope_accepts now (.inr (hins _ he))
    obtain ⟨s, stored, hs⟩ := haccepts
    unfold Node.nextEnvelope at hs
    unfold Node.persistEnvelope
    dsimp only at hs ⊢
    rw [hs]
    exact has_of_storeEnvelope hs
  | ingest batch =>
    refine Node.ingestEnvelopes_of_loop (P := fun n => Has e n.storage) (fun _ h => h.recompute) ?_
    exact ingestLoop_has batch n [] (fun p hp => hins p.1 (List.mem_map_of_mem hp)) (.inr he)
  | reconfigure registry => exact absurd he List.not_mem_nil
  | retain now => exact absurd he List.not_mem_nil

end Calls

/-! ## Runs -/

/-- The envelopes handed to the store in a run. -/
def handed : Node → List NodeAction → List Envelope
  | _, [] => []
  | n, a :: actions => handedBy n a ++ handed (a.step n) actions

section Runs
variable {n n' : Node} {envelopes : List Envelope} {actions actions' : List NodeAction} {e : Envelope}

theorem run_holding (hone : OneHistory envelopes) : ∀ {actions : List NodeAction} {n : Node},
    Admits NodeAction.step Keeps n actions → (∀ e ∈ handed n actions, e ∈ envelopes) →
      Holding envelopes n → Holding envelopes (run NodeAction.step n actions)
  | [], _, _, _, h => h
  | a :: actions, n, hkeeps, hfrom, h => by
    have hfrom' := List.forall_mem_append.1 hfrom
    change Holding envelopes (run NodeAction.step (a.step n) actions)
    exact run_holding hone hkeeps.2 hfrom'.2 (step_holding hone hkeeps.1 hfrom'.1 h)

theorem run_has : ∀ {actions : List NodeAction} {n : Node}, Admits NodeAction.step Keeps n actions →
    (∀ e ∈ handed n actions, DAGStorage.insertError e.event = none) →
      (Has e n.storage ∨ e ∈ handed n actions) → Has e (run NodeAction.step n actions).storage
  | [], _, _, _, h => h.resolve_right List.not_mem_nil
  | a :: actions, n, hkeeps, hins, h => by
    have hins' := List.forall_mem_append.1 hins
    change Has e (run NodeAction.step (a.step n) actions).storage
    refine run_has hkeeps.2 hins'.2 ?_
    rcases h with h | h
    · exact .inl (step_has hkeeps.1 h)
    · rcases List.mem_append.1 h with h | h
      · exact .inl (has_of_handedBy hins'.1 h)
      · exact .inr h

/-- The runs handed the stores the same events with the same hops. -/
structure SameHistory (envelopes envelopes' : List Envelope) : Prop where
  events : ∀ x, (∃ e ∈ envelopes, e.event.id = x) ↔ ∃ e ∈ envelopes', e.event.id = x
  hops : ∀ x hop, (∃ e ∈ envelopes, e.event.id = x ∧ hop ∈ e.pathMeta) ↔
    ∃ e ∈ envelopes', e.event.id = x ∧ hop ∈ e.pathMeta

theorem SameHistory.symm {envelopes envelopes' : List Envelope} (h : SameHistory envelopes envelopes') :
    SameHistory envelopes' envelopes :=
  ⟨fun x => (h.events x).symm, fun x hop => (h.hops x hop).symm⟩

/-- The store holds the envelopes and nothing else. -/
structure Holds (envelopes : List Envelope) (n : Node) : Prop where
  holding : Holding envelopes n
  has : ∀ e ∈ envelopes, Has e n.storage

theorem run_holds (hone : OneHistory (handed n actions)) (hkeeps : Admits NodeAction.step Keeps n actions)
    (hn : n.storage = {}) : Holds (handed n actions) (run NodeAction.step n actions) := by
  have hempty : Holding (handed n actions) n := by
    unfold Holding
    rw [hn]
    refine ⟨Tables.empty, fun row hrow => ?_, fun p hp => ?_, fun x hop hhop => ?_⟩
    · exact absurd hrow List.not_mem_nil
    · exact absurd hp List.not_mem_nil
    · exact absurd hhop List.not_mem_nil
  exact ⟨run_holding hone hkeeps (fun _ he => he) hempty, fun e he => run_has hkeeps hone.accepted (.inr he)⟩

theorem Holds.recompute (h : Holds envelopes n) : Holds envelopes n.recomputeConsensus.node :=
  ⟨h.holding.recompute, fun e he => (h.has e he).recompute⟩

section Two
variable {envelopes' : List Envelope} (hsame : SameHistory envelopes envelopes')
  (h : Holds envelopes n) (h' : Holds envelopes' n')
include hsame h h'

theorem Holds.hops_subset {x : String} {hop : Hop} (hhop : hop ∈ (Dict.get n.storage.envelopes x).getD []) :
    hop ∈ (Dict.get n'.storage.envelopes x).getD [] := by
  obtain ⟨e, he, rfl, hmem⟩ := h.holding.2.hops x hop hhop
  obtain ⟨e', he', hid, hmem'⟩ := (hsame.hops e.event.id hop).1 ⟨e, he, rfl, hmem⟩
  rw [← hid]
  exact (h'.has e' he').hops hop hmem'

variable (hone : OneHistory (envelopes ++ envelopes'))
include hone

theorem Holds.statics_subset {w : Event} (hw : w ∈ n.storage.allEvents.map Event.static) :
    w ∈ n'.storage.allEvents.map Event.static := by
  obtain ⟨row, hrow, rfl⟩ := mem_statics.1 hw
  obtain ⟨e, he, heq⟩ := h.holding.2.rows row hrow
  obtain ⟨e', he', hid⟩ := (hsame.events e.event.id).1 ⟨e, he, rfl⟩
  obtain ⟨row', hrow', hid'⟩ := List.mem_map.1 (h'.has e' he').id
  obtain ⟨e'', he'', heq'⟩ := h'.holding.2.rows row' hrow'
  have hwritten := hone.written e'' (List.mem_append_right _ he'') e (List.mem_append_left _ he)
    ((written_eq_id heq').symm.trans (hid'.trans hid))
  exact mem_statics.2 ⟨row', hrow', heq'.trans (hwritten.trans heq.symm)⟩

/-- An edge between stored events is stored on the other node. -/
theorem Holds.edge_subset {p c : String} (hedge : Kahn.Edge n.storage.ids n.storage.edges p c) :
    Kahn.Edge n'.storage.ids n'.storage.edges p c := by
  have hids : ∀ {x}, x ∈ n.storage.ids → x ∈ n'.storage.ids := by
    intro x hx
    obtain ⟨row, hrow, rfl⟩ := List.mem_map.1 hx
    obtain ⟨row', hrow', heq⟩ := mem_statics.1 (h.statics_subset hsame h' hone (mem_statics.2 ⟨row, hrow, rfl⟩))
    rw [← written_eq_id heq]
    exact List.mem_map_of_mem hrow'
  obtain ⟨hmem, hp, hc⟩ := hedge
  obtain ⟨row, hrow, rfl, hpar⟩ := h.holding.2.edges _ hmem
  obtain ⟨row', hrow', heq⟩ := mem_statics.1 (h.statics_subset hsame h' hone (mem_statics.2 ⟨row, hrow, rfl⟩))
  refine ⟨?_, hids hp, hids hc⟩
  rw [← written_parents, ← heq, written_parents] at hpar
  have hlinked := h'.holding.1.linked row' hrow' p hpar
  rwa [written_eq_id heq] at hlinked

end Two

/-- Two stores that hold one history. -/
theorem Holds.alike {envelopes' : List Envelope} (hone : OneHistory (envelopes ++ envelopes'))
    (hsame : SameHistory envelopes envelopes') (h : Holds envelopes n) (h' : Holds envelopes' n')
    (hmembers : (countedMembers n).Perm (countedMembers n')) : Alike n n' := by
  have hnodup : ∀ {m : Node}, Tables m.storage → (m.storage.allEvents.map Event.static).Nodup := by
    intro m htab
    have hall : (ids m.storage.allEvents).Nodup := (allEvents_ids _).nodup_iff.2 htab.nodup
    refine List.Nodup.of_map Event.id ?_
    rwa [List.map_map]
  refine ⟨?_, fun x hop => ?_, fun x hop hhop => ?_, hmembers⟩
  · refine (List.perm_ext_iff_of_nodup (hnodup h.holding.1) (hnodup h'.holding.1)).2 fun w => ?_
    exact ⟨h.statics_subset hsame h' hone, h'.statics_subset hsame.symm h hone.swap⟩
  · exact ⟨h.hops_subset hsame h', h'.hops_subset hsame.symm h⟩
  · obtain ⟨e, he, -, hmem⟩ := h.holding.2.hops x hop hhop
    exact hone.noNan e (List.mem_append_left _ he) hop hmem

/-- One history is acyclic on both nodes or on none. -/
theorem Holds.acyclic {envelopes' : List Envelope} (hone : OneHistory (envelopes' ++ envelopes))
    (hsame : SameHistory envelopes' envelopes) (h : Holds envelopes n) (h' : Holds envelopes' n')
    (hacyclic : Acyclic n.storage) : Acyclic n'.storage := by
  obtain ⟨order, hsort⟩ := hacyclic
  have hnone : ∀ x, ¬ TransGen (Kahn.Edge n.storage.ids n.storage.edges) x x :=
    (Kahn.toposort_isSome_iff h.holding.1.nodup).1 (by rw [toposort_eq_some hsort]; rfl)
  have hsome : (Kahn.toposort n'.storage.ids n'.storage.edges).isSome = true := by
    refine (Kahn.toposort_isSome_iff h'.holding.1.nodup).2 fun x hcycle => hnone x ?_
    exact TransGen.mono (fun p c hedge => h'.edge_subset hsame h hone hedge) _ _ hcycle
  obtain ⟨order', horder'⟩ := Option.isSome_iff_exists.1 hsome
  refine ⟨order', ?_⟩
  unfold DAGStorage.toposort
  rw [horder']

theorem recompute_members (n : Node) : countedMembers n.recomputeConsensus.node = countedMembers n := by
  obtain ⟨states, hnode⟩ := n.recomputeConsensus_node
  rw [hnode]
  rfl

end Runs

/-- **Nodes converge.** Two nodes start with empty stores and with snapshots of
their registries for memberships. In any two runs of emissions, batches,
changes of the membership and retention passes that delete nothing, after which
both count the same members, let the stores have been handed the same events
with the same hops, one event for each id, no hop at NaN and none that SQLite
refuses. If the graph is acyclic and free of forks, then the nodes agree once
both have recomputed: on every event with all its columns, on the finalized ids
and on the Merkle root of every round, and the monitor of neither has anything
to report. -/
theorem nodes_converge {n n' : Node} {actions actions' : List NodeAction} (hn : n.storage = {})
    (hn' : n'.storage = {}) (henrolled : Enrolled n) (henrolled' : Enrolled n')
    (hkeeps : Admits NodeAction.step Keeps n actions) (hkeeps' : Admits NodeAction.step Keeps n' actions')
    (hone : OneHistory (handed n actions ++ handed n' actions'))
    (hsame : SameHistory (handed n actions) (handed n' actions'))
    (hmembers : (countedMembers (run NodeAction.step n actions)).Perm
      (countedMembers (run NodeAction.step n' actions')))
    (hacyclic : Acyclic (run NodeAction.step n actions).storage)
    (hfork : ForkFree (run NodeAction.step n actions).storage.allEvents) :
    Agreeing (run NodeAction.step n actions).recomputeConsensus.node
      (run NodeAction.step n' actions').recomputeConsensus.node := by
  have hholds := run_holds (hone.of_subset fun _ he => List.mem_append_left _ he) hkeeps hn
  have hholds' := run_holds (hone.of_subset fun _ he => List.mem_append_right _ he) hkeeps' hn'
  have hacyclic' := hholds.acyclic hone.swap hsame.symm hholds' hacyclic
  obtain ⟨order, hsort⟩ := hacyclic
  obtain ⟨order', hsort'⟩ := hacyclic'
  have hfresh := recomputeConsensus_fresh hholds.holding.1 hsort
  have hfresh' := recomputeConsensus_fresh hholds'.holding.1 hsort'
  have halike := hholds.recompute.alike hone hsame hholds'.recompute
    (by rw [recompute_members, recompute_members]; exact hmembers)
  have hends := (run_invariant step_enrolled henrolled hkeeps).of_same (Node.recomputeConsensus_same _)
  have hends' := (run_invariant step_enrolled henrolled' hkeeps').of_same (Node.recomputeConsensus_same _)
  refine halike.agreeing hends hends' hholds.recompute.holding.1 hholds'.recompute.holding.1 ?_ hfresh hfresh'
  -- the recompute changed columns only, and forks do not depend on them
  have hstatics : SameEvents (run NodeAction.step n actions).recomputeConsensus.node.storage.allEvents
      (run NodeAction.step n actions).storage.allEvents := by
    unfold SameEvents
    rw [recompute_statics hholds.holding.1]
  exact hstatics.view.forkFree ((allEvents_ids _).nodup_iff.2 hholds.holding.1.nodup) hfork

/-! ### Two nodes and two events -/

/-- A node of two, with the snapshot of its registry. -/
def ofTwo (nodeId : String) : Node :=
  Node.withRegistry { config := { nodeId := nodeId }, membership := ⟨[], ""⟩ }
    ⟨[⟨"h:1", "b", true, "node", false⟩, ⟨"h:2", " a", true, "node", false⟩], "node"⟩

/-- An event of each node, as the other one sees it. -/
def opening : Envelope := ⟨Event.linked "x" "a" [], [⟨some "a", some (.fin 1)⟩, ⟨some "b", some (.fin 2)⟩]⟩

def reply : Envelope := ⟨Event.linked "y" "b" ["x"], [⟨some "b", some (.fin 3)⟩]⟩

/-- One node takes them one by one, the other in one batch, the reply first
and twice. -/
theorem nodes_converge_two :
    Agreeing (run NodeAction.step (ofTwo "a")
        ([[(opening, .fin 1)], [(reply, .fin 2)]].map NodeAction.ingest)).recomputeConsensus.node
      (run NodeAction.step (ofTwo "b")
        ([[(reply, .fin 7), (opening, .fin 8), (reply, .fin 9)]].map NodeAction.ingest)).recomputeConsensus.node := by
  have hmem : ∀ e ∈ [opening, reply] ++ [reply, opening, reply], e = opening ∨ e = reply := by
    simp only [List.cons_append, List.nil_append, List.mem_cons, List.not_mem_nil, or_false]
    tauto
  have hof : ∀ e, e ∈ [opening, reply] ↔ e ∈ [reply, opening, reply] := by
    simp only [List.mem_cons, List.not_mem_nil, or_false]
    tauto
  have henrolled : ∀ id, strip id = id ∧ id ≠ "" → Enrolled (ofTwo id) := by
    intro id hid
    unfold ofTwo
    refine enrolled_withRegistry ?_ _
    exact hid
  have hstart : ∀ id, (ofTwo id).storage = {} := fun _ => rfl
  have hone : OneHistory ([opening, reply] ++ [reply, opening, reply]) := by
    refine ⟨fun e he e' he' hid => ?_, fun e he => ?_, fun e he => ?_⟩
    · rcases hmem e he with rfl | rfl <;> rcases hmem e' he' with rfl | rfl
      · rfl
      · exact absurd hid (by decide)
      · exact absurd hid (by decide)
      · rfl
    · rcases hmem e he with rfl | rfl <;> decide
    · rcases hmem e he with rfl | rfl <;> rfl
  have hsame : SameHistory [opening, reply] [reply, opening, reply] :=
    ⟨fun x => exists_congr fun e => and_congr_left fun _ => hof e,
      fun x hop => exists_congr fun e => and_congr_left fun _ => hof e⟩
  have hkeeps : ∀ {n : Node} {batches : List (List (Envelope × Flt))},
      Admits NodeAction.step Keeps n (batches.map NodeAction.ingest) := by
    refine admits_of_forall fun a ha n => ?_
    obtain ⟨batch, -, rfl⟩ := List.mem_map.1 ha
    trivial
  have hhanded : ∀ (batches : List (List (Envelope × Flt))) (n : Node),
      handed n (batches.map NodeAction.ingest) = batches.flatten.map Prod.fst := by
    intro batches
    induction batches with
    | nil => intro n; rfl
    | cons batch batches ih =>
      intro n
      rw [List.flatten_cons, List.map_append, ← ih (NodeAction.step n (.ingest batch))]
      rfl
  refine nodes_converge (hstart "a") (hstart "b") (henrolled "a" (by decide +kernel)) (henrolled "b" (by decide +kernel)) hkeeps hkeeps
    (by rw [hhanded, hhanded]; exact hone) (by rw [hhanded, hhanded]; exact hsame) ?_ ?_ ?_
  · decide +kernel
  · exact ⟨["x", "y"], by decide +kernel⟩
  · exact forkFree_of_ancestors (by decide +kernel) (by decide +kernel)

end Mdrj.L5
