import Mdrj.Core.BreadthFirst
import Mdrj.L2Consensus.Ancestry
import Mdrj.L4Node.Graph

/-!
# Frontier sync

A round of anti-entropy asks a peer for its frontier, the newest event of
each author, and pulls the ancestry of every tip that is not stored locally.
The peer serves the first 64 events of a breadth-first listing; what is
stored locally is not looked at beyond the tips. A round that finds every tip
stored is content even when ancestors are missing (`tip_without_parent`). It
is right to be so, whatever requests fail on the way, exactly when every
missing ancestor comes along with some missing tip (`frontier_sync_closed_iff`). The listing itself is exact for
every store, cyclic or with parents missing (`ancestry_exact`).

A request may go unanswered, by a network error or a status other than 200.
The recompute at the end of an ingest writes consensus columns only, which
nothing here reads; a cycle it raises ends the round early, as if the
remaining requests went unanswered.

Left out: the push of local tips to the pending queue.
-/
namespace Mdrj.L4
open Mdrj.Core Mdrj.L1 Mdrj.L2 Mdrj.L3

/-! ## The peer's side -/

/-- The newest event id of each author, by its own timestamp.
mirrors mdrj/node.py:1643-1657 -/
def localFrontier (s : DAGStorage) : Dict String String :=
  (s.allEvents.foldl (fun (latest : Dict String (Flt × String)) event =>
    if event.author = "" then latest
    else match Dict.get latest event.author with
      | none => Dict.set latest event.author (event.tsLocal, event.id)
      | some (ts, _) =>
        if Flt.lt ts event.tsLocal then Dict.set latest event.author (event.tsLocal, event.id)
        else latest) []).map fun p => (p.1, p.2.2)

/-- The parents of a stored event that the search follows. -/
def ancestryNext (s : DAGStorage) (eventId : String) : Option (List String) :=
  (s.getEnvelope eventId).map fun envelope => envelope.event.parents.filter (· ≠ "")

/-- The ids the search meets, up to `depth` of them.
mirrors mdrj/api.py:7480-7498 -/
def eventAncestry (s : DAGStorage) (eventId : String) (depth : Nat) : List String :=
  bfs (ancestryNext s) depth [eventId] []

/-- What is returned for them; the depth is the one after clamping.
mirrors mdrj/api.py:7469-7499 -/
def handleEventAncestry (s : DAGStorage) (eventId : String) (depth : Nat) : List Envelope :=
  (eventAncestry s eventId depth).filterMap s.getEnvelope

/-- An event as it comes out of JSON.
mirrors mdrj/models.py:255-262 -/
def receivedEvent (event : Event) : Event :=
  { event with
    creator := event.author
    selfParentId := match event.selfParentId with
      | none | some "" => event.parents[0]?
      | some p => some p
    otherParentId := match event.otherParentId with
      | none | some "" => event.parents[1]?
      | some p => some p }

/-- The envelopes of an answer. -/
def pullAncestry (peer : DAGStorage) (eventId : String) (depth : Nat) : List Envelope :=
  (eventAncestry peer eventId depth).filterMap fun x =>
    (peer.getEnvelope x).map fun envelope => ⟨receivedEvent envelope.event, envelope.pathMeta⟩

/-! ## What the peer serves -/

section Serving
variable {s : DAGStorage}

theorem isNone_getEvent {x : String} : (s.getEvent x).isNone = true ↔ x ∉ s.ids := by
  unfold DAGStorage.getEvent DAGStorage.ids
  rw [Option.isNone_map, Option.isNone_iff_eq_none, List.find?_eq_none, List.mem_map]
  constructor
  · rintro h ⟨row, hrow, rfl⟩
    exact h row hrow (decide_eq_true rfl)
  · intro h row hrow he
    exact h ⟨row, hrow, of_decide_eq_true he⟩

/-- A stored event and one of its parents that is stored too. -/
def StoredParent (s : DAGStorage) (x p : String) : Prop :=
  ∃ event, s.getEvent x = some event ∧ p ∈ event.parents ∧ p ∈ s.ids

theorem isSome_ancestryNext {x : String} : (ancestryNext s x).isSome = true ↔ x ∈ s.ids := by
  unfold ancestryNext DAGStorage.getEnvelope
  rw [Option.isSome_map, Option.isSome_map, ← not_iff_not, ← isNone_getEvent]
  cases s.getEvent x <;> simp

theorem ancestryNext_mem {x p : String} {succs : List String} (h : ancestryNext s x = some succs) :
    p ∈ succs ↔ p ≠ "" ∧ ∃ event, s.getEvent x = some event ∧ p ∈ event.parents := by
  unfold ancestryNext DAGStorage.getEnvelope at h
  rw [Option.map_map] at h
  obtain ⟨event, hget, rfl⟩ := Option.map_eq_some_iff.1 h
  simp [hget, and_comm]

/-- The search steps along stored parents. -/
theorem step_ancestryNext (hids : ∀ id ∈ s.ids, id ≠ "") :
    BreadthFirst.Step (ancestryNext s) = StoredParent s := by
  funext x p
  refine propext ⟨fun h => ?_, fun h => ?_⟩
  · obtain ⟨succs, hnext, hmem, hsome⟩ := h
    obtain ⟨-, event, hget, hpar⟩ := (ancestryNext_mem hnext).1 hmem
    exact ⟨event, hget, hpar, isSome_ancestryNext.1 hsome⟩
  · obtain ⟨event, hget, hpar, hp⟩ := h
    have hsome : (ancestryNext s x).isSome = true := by
      unfold ancestryNext DAGStorage.getEnvelope
      rw [hget]
      rfl
    obtain ⟨succs, hnext⟩ := Option.isSome_iff_exists.1 hsome
    exact ⟨succs, hnext, (ancestryNext_mem hnext).2 ⟨hids p hp, event, hget, hpar⟩,
      isSome_ancestryNext.2 hp⟩

/-- A search that starts: the requested event, then what its parents lead to. -/
theorem eventAncestry_stored {x : String} (hx : x ∈ s.ids) (d : Nat) : ∃ succs,
    ancestryNext s x = some succs ∧
    eventAncestry s x (d + 1) = x :: bfs (ancestryNext s) d (succs.filter (· ∉ [x])) [x] := by
  obtain ⟨succs, hnext⟩ := Option.isSome_iff_exists.1 (isSome_ancestryNext.2 hx)
  refine ⟨succs, hnext, ?_⟩
  unfold eventAncestry
  rw [bfs, if_neg List.not_mem_nil, hnext]
  rfl

theorem eventAncestry_absent {x : String} (hx : x ∉ s.ids) (d : Nat) : eventAncestry s x (d + 1) = [] := by
  have hnone : ancestryNext s x = none :=
    Option.not_isSome_iff_eq_none.1 fun hsome => hx (isSome_ancestryNext.1 hsome)
  unfold eventAncestry
  rw [bfs, if_neg List.not_mem_nil, hnone]
  dsimp only
  rw [bfs]

theorem eventAncestry_complete (hids : ∀ id ∈ s.ids, id ≠ "") {x : String} (hx : x ∈ s.ids) {d : Nat}
    (hlt : (eventAncestry s x d).length < d) {y : String} (hy : Relation.ReflTransGen (StoredParent s) x y) :
    y ∈ eventAncestry s x d := by
  obtain ⟨hqueue, hsucc⟩ := BreadthFirst.bfs_complete d [x] [] hlt fun y hy => absurd hy List.not_mem_nil
  rw [step_ancestryNext hids] at hsucc
  induction hy with
  | refl => exact (hqueue x List.mem_cons_self (isSome_ancestryNext.2 hx)).resolve_left List.not_mem_nil
  | tail _ hstep ih => exact (hsucc _ (.inr ih) _ hstep).resolve_left List.not_mem_nil

theorem handleEventAncestry_ids (s : DAGStorage) (x : String) (d : Nat) :
    (handleEventAncestry s x d).map (fun envelope => envelope.event.id) = eventAncestry s x d ∧
      ∀ envelope ∈ handleEventAncestry s x d, s.getEnvelope envelope.event.id = some envelope := by
  have hget : ∀ y envelope, s.getEnvelope y = some envelope → envelope.event.id = y :=
    fun y envelope h => DAGStorage.getEnvelope_id h
  unfold handleEventAncestry
  constructor
  · rw [List.map_filterMap]
    conv_rhs => rw [← List.filterMap_some (l := eventAncestry s x d)]
    refine List.filterMap_congr fun y hy => ?_
    have hsome := bfs_isSome d [x] [] y hy
    unfold ancestryNext at hsome
    rw [Option.isSome_map] at hsome
    obtain ⟨envelope, henv⟩ := Option.isSome_iff_exists.1 hsome
    rw [henv, Option.map_some, hget y envelope henv]
  · intro envelope hmem
    obtain ⟨y, -, hy⟩ := List.mem_filterMap.1 hmem
    rw [hget y envelope hy]
    exact hy

/-- **Ancestry.** In every store without an empty id, whatever its parent
references, an answer of depth `d` has at most `d` events, all different and
stored. The requested one is the first, if it is stored; every other is a
parent of one before it, and the distance from the requested one never
decreases. An answer of fewer events has all that can be reached through
stored events. -/
theorem ancestry_exact (s : DAGStorage) (hids : ∀ id ∈ s.ids, id ≠ "") (x : String) (d : Nat)
    (hd : 1 ≤ d) :
    let answer := handleEventAncestry s x d
    let ids := answer.map fun envelope => envelope.event.id
    answer.length ≤ d ∧ ids.Nodup ∧ (∀ envelope ∈ answer, s.getEnvelope envelope.event.id = some envelope) ∧
    (x ∈ s.ids → ids.head? = some x) ∧ (x ∉ s.ids → answer = []) ∧
    (∀ pre y post, ids = pre ++ y :: post → pre ≠ [] → ∃ p ∈ pre, StoredParent s p y) ∧
    (ids.Pairwise fun a b => BreadthFirst.distance (StoredParent s) x a ≤
      BreadthFirst.distance (StoredParent s) x b) ∧
    (answer.length < d → x ∈ s.ids → ∀ y, Relation.ReflTransGen (StoredParent s) x y → y ∈ ids) := by
  intro answer ids
  obtain ⟨heq, hget⟩ := handleEventAncestry_ids s x d
  obtain ⟨k, rfl⟩ := Nat.exists_eq_add_of_le' hd
  have hlen : answer.length = (eventAncestry s x (k + 1)).length := by rw [← heq, List.length_map]
  have hstored : ∀ y ∈ eventAncestry s x (k + 1), y ∈ s.ids := fun y hy =>
    isSome_ancestryNext.1 (bfs_isSome _ _ _ y hy)
  change answer.length ≤ _ ∧ ids.Nodup ∧ _
  rw [hlen, show ids = eventAncestry s x (k + 1) from heq]
  refine ⟨bfs_length _ _ _, (bfs_nodup _ _ _).1, hget, fun hx => ?_, fun hx => ?_, ?_, ?_,
    fun hlt hx y hy => eventAncestry_complete hids hx hlt hy⟩
  · obtain ⟨succs, -, hbfs⟩ := eventAncestry_stored hx k
    rw [hbfs]
    rfl
  · exact List.map_eq_nil_iff.1 (heq.trans (eventAncestry_absent hx k))
  · intro pre y post hsplit hpre
    obtain ⟨z, pre, rfl⟩ := List.exists_cons_of_ne_nil hpre
    by_cases hx : x ∈ s.ids
    · have hy : y ∈ s.ids := hstored y (by rw [hsplit]; simp)
      obtain ⟨succs, hnext, hbfs⟩ := eventAncestry_stored hx k
      obtain ⟨rfl, hrest⟩ := List.cons.inj (hbfs.symm.trans hsplit)
      obtain ⟨p, hp, succs', hp', hmem⟩ := BreadthFirst.bfs_successor k _ [x] [x]
        (fun y hy => ⟨x, List.mem_singleton_self x, succs, hnext, List.mem_of_mem_filter hy⟩) pre y post hrest
      obtain ⟨-, event, hevent, hpar⟩ := (ancestryNext_mem hp').1 hmem
      exact ⟨p, hp, event, hevent, hpar, hy⟩
    · rw [eventAncestry_absent hx k] at hsplit
      cases hsplit
  · have hsorted := (BreadthFirst.bfs_sorted (k + 1) [x] [] 0 [x] [] rfl
      (BreadthFirst.Levels.init (ancestryNext s) x)).2
    rw [step_ancestryNext hids] at hsorted
    exact hsorted

/-- Two events that name each other, one of them a third that is not there. -/
def circular : DAGStorage where
  events := [⟨Event.linked "x" "a" ["y", ""], .fin 0⟩, ⟨Event.linked "y" "b" ["x", "gone"], .fin 1⟩]

theorem ancestry_exact_circular :
    ((handleEventAncestry circular "x" 64).map fun envelope => envelope.event.id).head? = some "x" ∧
      ((handleEventAncestry circular "x" 64).map fun envelope => envelope.event.id).Nodup := by
  have h := ancestry_exact circular (by decide) "x" 64 (by decide)
  exact ⟨h.2.2.2.1 (by decide), h.2.1⟩

end Serving

/-! ## A round -/

/-- What a round meets: which requests are answered, and the clock at each
insertion. -/
structure Round where
  answered : String → Bool
  now : String → Flt

/-- mirrors mdrj/node.py:1673-1679 -/
def missingIds (frontier : Dict String String) (s : DAGStorage) : List String :=
  (Dict.values frontier).filter fun x => x ≠ "" ∧ (s.getEvent x).isNone

/-- An error ends the loop.
mirrors mdrj/node.py:915-922 -/
def storeAll (now : String → Flt) : DAGStorage → List Envelope → DAGStorage × Except PyError Unit
  | s, [] => (s, .ok ())
  | s, envelope :: rest =>
    match s.storeEnvelope envelope envelope.event.consensusTs (now envelope.event.id) with
    | .error err => (s, .error err)
    | .ok (s, _) => storeAll now s rest

/-- mirrors mdrj/node.py:1686-1690 -/
def pullMissing (peer : DAGStorage) (r : Round) :
    DAGStorage → List String → DAGStorage × Except PyError Unit
  | s, [] => (s, .ok ())
  | s, x :: rest =>
    if r.answered x then
      match storeAll r.now s (pullAncestry peer x 64) with
      | (s, .error err) => (s, .error err)
      | (s, .ok ()) => pullMissing peer r s rest
    else pullMissing peer r s rest

/-- The local store after a round.
mirrors mdrj/node.py:1659-1692 -/
def frontierSyncOnce (peer s : DAGStorage) (r : Round) : DAGStorage :=
  (pullMissing peer r s (missingIds (localFrontier peer) s)).1

/-! ## What a round stores -/

/-- The rows are such as SQLite keeps: no NaN in a `NOT NULL` column, 64-bit
integers. -/
def Storable (s : DAGStorage) : Prop := ∀ row ∈ s.events, DAGStorage.insertError row.event = none

section Round
variable {peer s : DAGStorage} {r : Round}

theorem mem_missingIds {frontier : Dict String String} {x : String} :
    x ∈ missingIds frontier s ↔ x ∈ Dict.values frontier ∧ x ≠ "" ∧ x ∉ s.ids := by
  unfold missingIds
  rw [List.mem_filter, decide_eq_true_iff, isNone_getEvent]

/-- An answer is what the peer serves, read from JSON. -/
theorem pullAncestry_eq (peer : DAGStorage) (eventId : String) (depth : Nat) :
    pullAncestry peer eventId depth = (handleEventAncestry peer eventId depth).map
      fun envelope => ⟨receivedEvent envelope.event, envelope.pathMeta⟩ := by
  unfold pullAncestry handleEventAncestry
  rw [List.map_filterMap]

/-- An answer holds stored, insertable events under their ids. -/
theorem pullAncestry_spec (hpeer : Storable peer) (eventId : String) (depth : Nat) :
    (pullAncestry peer eventId depth).map (·.event.id) = eventAncestry peer eventId depth ∧
      ∀ envelope ∈ pullAncestry peer eventId depth,
        DAGStorage.insertError envelope.event = none := by
  obtain ⟨hids, hget⟩ := handleEventAncestry_ids peer eventId depth
  rw [pullAncestry_eq]
  constructor
  · rw [List.map_map]
    exact hids
  · intro envelope henv
    obtain ⟨served, hserved, rfl⟩ := List.mem_map.1 henv
    have hfind := hget served hserved
    unfold DAGStorage.getEnvelope DAGStorage.getEvent at hfind
    rw [Option.map_map] at hfind
    obtain ⟨row, hrow, hload⟩ := Option.map_eq_some_iff.1 hfind
    rw [← hload]
    exact hpeer row (List.mem_of_find?_eq_some hrow)

theorem storeAll_ids (now : String → Flt) (envelopes : List Envelope) :
    ∀ s : DAGStorage, (∀ envelope ∈ envelopes, DAGStorage.insertError envelope.event = none) →
      (storeAll now s envelopes).2 = .ok () ∧
        ∀ x, x ∈ (storeAll now s envelopes).1.ids ↔ x ∈ s.ids ∨ x ∈ envelopes.map (·.event.id) := by
  induction envelopes with
  | nil => intro s _; exact ⟨rfl, fun x => by simp [storeAll]⟩
  | cons envelope rest ih =>
    intro s hins
    obtain ⟨s', stored, hs⟩ : ∃ s' stored, s.storeEnvelope envelope envelope.event.consensusTs
        (now envelope.event.id) = .ok (s', stored) := by
      by_cases hid : envelope.event.id ∈ s.ids
      · exact ⟨_, _, DAGStorage.storeEnvelope_known hid⟩
      · exact ⟨_, _, DAGStorage.storeEnvelope_new hid (hins envelope List.mem_cons_self)⟩
    have hids : ∀ x, x ∈ s'.ids ↔ x ∈ s.ids ∨ x = envelope.event.id := by
      intro x
      rcases storeEnvelope_graph hs with ⟨hid, -, -, hrows⟩ | ⟨-, -, -, hrows⟩
      · have hsame : s'.ids = s.ids := by
          have := congrArg (List.map Prod.fst) hrows
          rwa [List.map_map, List.map_map] at this
        rw [hsame]
        exact ⟨.inl, fun h => h.elim id fun he => he ▸ hid⟩
      · unfold DAGStorage.ids
        rw [hrows, List.map_append, List.mem_append, List.map_singleton, List.mem_singleton]
        rfl
    obtain ⟨hok, hmem⟩ := ih s' fun e he => hins e (List.mem_cons_of_mem _ he)
    unfold storeAll
    rw [hs]
    refine ⟨hok, fun x => (hmem x).trans ?_⟩
    rw [hids, List.map_cons, List.mem_cons, or_assoc]

theorem pullMissing_ids (hpeer : Storable peer) (missing : List String) :
    ∀ (s : DAGStorage) (x : String), x ∈ (pullMissing peer r s missing).1.ids ↔
      x ∈ s.ids ∨ ∃ m ∈ missing, r.answered m = true ∧ x ∈ eventAncestry peer m 64 := by
  induction missing with
  | nil => intro s x; simp [pullMissing]
  | cons m rest ih =>
    intro s x
    unfold pullMissing
    obtain ⟨hids, hins⟩ := pullAncestry_spec hpeer m 64
    by_cases hm : r.answered m = true
    · rw [if_pos hm]
      obtain ⟨hok, hmem⟩ := storeAll_ids r.now (pullAncestry peer m 64) s hins
      cases hs : storeAll r.now s (pullAncestry peer m 64) with
      | mk s' result =>
        rw [hs] at hok hmem
        obtain rfl : result = .ok () := hok
        dsimp only at hmem ⊢
        rw [ih, hmem, hids]
        simp [hm, or_assoc]
    · rw [if_neg hm, ih]
      simp [hm]

/-- What a round adds: the answers to its missing tips. -/
theorem frontierSyncOnce_ids (hpeer : Storable peer) (s : DAGStorage) (x : String) :
    x ∈ (frontierSyncOnce peer s r).ids ↔ x ∈ s.ids ∨
      ∃ m ∈ missingIds (localFrontier peer) s, r.answered m = true ∧ x ∈ eventAncestry peer m 64 :=
  pullMissing_ids hpeer _ s x

end Round

/-! ## Closure -/

/-- The breadth-first listing of an ancestry, with room for every stored
event. -/
def lineage (peer : DAGStorage) (x : String) : List String :=
  eventAncestry peer x (64 + peer.events.length)

theorem eventAncestry_eq (peer : DAGStorage) (x : String) :
    eventAncestry peer x 64 = (lineage peer x).take 64 := bfs_take _ _ _ _

/-- A round that finds no tip missing has everything the tips descend from. -/
def Closed (peer s : DAGStorage) : Prop :=
  missingIds (localFrontier peer) s = [] →
    ∀ tip ∈ Dict.values (localFrontier peer), ∀ y ∈ peer.ids, Sees peer.allEvents tip y → y ∈ s.ids

/-- Every missing ancestor of a tip comes along with some missing tip: it is
among the first 64 of every listing that has this tip among its first 64. -/
def Accompanied (peer s : DAGStorage) : Prop :=
  ∀ tip ∈ Dict.values (localFrontier peer), ∀ y ∈ peer.ids, Sees peer.allEvents tip y →
    y ∈ s.ids ∨ ∃ f ∈ missingIds (localFrontier peer) s, ∀ m ∈ missingIds (localFrontier peer) s,
      f ∈ (lineage peer m).take 64 → y ∈ (lineage peer m).take 64

/-- After any rounds, the local store is the old one and the answers to some
of the tips it missed. -/
theorem run_ids {peer : DAGStorage} (hpeer : Storable peer) (s : DAGStorage) (rounds : List Round) :
    ∃ answered : String → Prop, ∀ x, x ∈ (run (frontierSyncOnce peer) s rounds).ids ↔
      x ∈ s.ids ∨ ∃ m ∈ missingIds (localFrontier peer) s, answered m ∧ x ∈ eventAncestry peer m 64 := by
  induction rounds generalizing s with
  | nil => exact ⟨fun _ => False, fun x => by simp [run]⟩
  | cons r rounds ih =>
    obtain ⟨answered, h⟩ := ih (frontierSyncOnce peer s r)
    refine ⟨fun m => r.answered m = true ∨
      m ∈ missingIds (localFrontier peer) (frontierSyncOnce peer s r) ∧ answered m, fun x => ?_⟩
    refine (h x).trans ?_
    rw [frontierSyncOnce_ids hpeer s x]
    constructor
    · rintro ((hx | ⟨m, hm, hans, hx⟩) | ⟨m, hm, hans, hx⟩)
      · exact .inl hx
      · exact .inr ⟨m, hm, .inl hans, hx⟩
      · -- a tip missing after the round was missing before it
        obtain ⟨htip, hne, hnot⟩ := mem_missingIds.1 hm
        refine .inr ⟨m, mem_missingIds.2 ⟨htip, hne, fun hs => hnot ?_⟩, .inr ⟨hm, hans⟩, hx⟩
        exact (frontierSyncOnce_ids hpeer s m).2 (.inl hs)
    · rintro (hx | ⟨m, hm, hans | ⟨hm', hans⟩, hx⟩)
      · exact .inl (.inl hx)
      · exact .inl (.inr ⟨m, hm, hans, hx⟩)
      · exact .inr ⟨m, hm', hans, hx⟩

/-- **Frontier sync reaches closure.** Whatever rounds are made against a
peer and whichever requests fail, a round that finds no tip missing has all
ancestors stored, exactly when every missing ancestor comes along with some
missing tip. -/
theorem frontier_sync_closed_iff {peer s : DAGStorage} (hpeer : Storable peer) :
    (∀ rounds, Closed peer (run (frontierSyncOnce peer) s rounds)) ↔ Accompanied peer s := by
  constructor
  · intro h tip htip y hy hsees
    by_contra hno
    obtain ⟨hys, halone⟩ := not_or.1 hno
    -- answer the tips whose listing leaves `y` out
    obtain ⟨r, hr⟩ : ∃ r : Round, ∀ m, r.answered m = true ↔ y ∉ eventAncestry peer m 64 :=
      ⟨⟨fun m => decide (y ∉ eventAncestry peer m 64), fun _ => .fin 0⟩, fun m => decide_eq_true_iff⟩
    have hids := frontierSyncOnce_ids (r := r) hpeer s
    have hnone : missingIds (localFrontier peer) (frontierSyncOnce peer s r) = [] := by
      refine List.eq_nil_iff_forall_not_mem.2 fun f hf => ?_
      obtain ⟨hval, hne, hnot⟩ := mem_missingIds.1 hf
      have hmissing : f ∈ missingIds (localFrontier peer) s :=
        mem_missingIds.2 ⟨hval, hne, fun hs => hnot ((hids f).2 (.inl hs))⟩
      obtain ⟨m, hm, hfm, hym⟩ : ∃ m ∈ missingIds (localFrontier peer) s,
          f ∈ eventAncestry peer m 64 ∧ y ∉ eventAncestry peer m 64 := by
        by_contra hall
        refine halone ⟨f, hmissing, fun m hm hfm => ?_⟩
        by_contra hym
        rw [← eventAncestry_eq] at hfm hym
        exact hall ⟨m, hm, hfm, hym⟩
      exact hnot ((hids f).2 (.inr ⟨m, hm, (hr m).2 hym, hfm⟩))
    rcases (hids y).1 (h [r] hnone tip htip y hy hsees) with hs | ⟨m, -, hans, hym⟩
    · exact hys hs
    · exact (hr m).1 hans hym
  · intro h rounds hnone tip htip y hy hsees
    obtain ⟨answered, hids⟩ := run_ids hpeer s rounds
    rcases h tip htip y hy hsees with hs | ⟨f, hf, hall⟩
    · exact (hids y).2 (.inl hs)
    · obtain ⟨hval, hne, hnot⟩ := mem_missingIds.1 hf
      -- the tip `f` is stored by now, so some answer had it, and `y` with it
      have hstored : f ∈ (run (frontierSyncOnce peer) s rounds).ids := by
        by_contra hmiss
        exact absurd (mem_missingIds.2 ⟨hval, hne, hmiss⟩) (hnone ▸ List.not_mem_nil)
      rcases (hids f).1 hstored with hs | ⟨m, hm, hans, hfm⟩
      · exact absurd hs hnot
      · refine (hids y).2 (.inr ⟨m, hm, hans, ?_⟩)
        rw [eventAncestry_eq] at hfm ⊢
        exact hall m hm hfm

/-- A peer with an event and its child. -/
def chainPeer : DAGStorage where
  events := [⟨Event.linked "x" "a" [], .fin 0⟩, ⟨{ Event.linked "y" "a" ["x"] with tsLocal := .fin 1 }, .fin 1⟩]
  envelopes := [("x", []), ("y", [])]
  edges := [("x", "y")]

theorem chainPeer_storable : Storable chainPeer := by
  intro row hrow
  rcases List.mem_cons.1 hrow with rfl | hrow
  · decide +kernel
  · obtain rfl := List.mem_singleton.1 hrow
    decide +kernel

theorem chainPeer_lineage : (lineage chainPeer "y").take 64 = ["y", "x"] := by
  have hx : ancestryNext chainPeer "x" = some [] := by decide +kernel
  have hy : ancestryNext chainPeer "y" = some ["x"] := by decide +kernel
  rw [← eventAncestry_eq]
  unfold eventAncestry
  simp [bfs, hx, hy]

theorem frontier_sync_closed_chain :
    Closed chainPeer (run (frontierSyncOnce chainPeer) {} [⟨fun _ => true, fun _ => .fin 0⟩]) := by
  refine (frontier_sync_closed_iff chainPeer_storable).2 ?_ _
  intro tip _ y hy _
  have hmissing : missingIds (localFrontier chainPeer) {} = ["y"] := by decide +kernel
  refine .inr ⟨"y", by rw [hmissing]; exact List.mem_singleton_self _, fun m hm _ => ?_⟩
  rw [hmissing, List.mem_singleton] at hm
  rw [hm, chainPeer_lineage]
  exact (show ∀ y ∈ chainPeer.ids, y ∈ ["y", "x"] by decide) y hy

/-- A local store that got the child first is content without the parent. -/
theorem tip_without_parent : ∃ peer s : DAGStorage, Storable peer ∧ ForkFree peer.allEvents ∧
    (∀ row ∈ peer.events, ∀ p ∈ row.event.parents, p ∈ peer.ids) ∧
    missingIds (localFrontier peer) s = [] ∧
    ∃ tip ∈ Dict.values (localFrontier peer), ∃ y ∈ peer.ids, Sees peer.allEvents tip y ∧ y ∉ s.ids := by
  refine ⟨chainPeer, { events := chainPeer.events.drop 1 }, chainPeer_storable,
    forkFree_of_ancestors (by decide +kernel) (by decide +kernel), by decide, by decide +kernel,
    "y", by decide +kernel, "x", by decide, ?_, by decide⟩
  exact Relation.ReflTransGen.single ⟨_, List.mem_cons_of_mem _ List.mem_cons_self, rfl, List.mem_cons_self⟩

end Mdrj.L4
