import Mdrj.L2Consensus.OrderFree

/-!
# What a pass reads

`recompute` reads of an event its id, its author and its parents, of the
membership which ids are in it, and of the columns nothing: the sort keys of
`total_order` all come from the pass itself. So a pass over events whose
columns were written meanwhile returns the same states (`recompute_congr`).

It also returns (`recompute_returns`), with one state for every event,
whether or not an author has forked.
-/
namespace Mdrj.L2
open Mdrj.Core Mdrj.L1

/-! ## Contexts that answer alike -/

/-- The same links, authors and members. -/
structure Ctx.Same (c c' : Ctx) : Prop where
  parents : ∀ x, (Dict.get c.byId x).map Event.parents = (Dict.get c'.byId x).map Event.parents
  authors : ∀ x, (Dict.get c.byId x).map Event.author = (Dict.get c'.byId x).map Event.author
  members : c.membershipIds.Perm c'.membershipIds
  depth : c.depth = c'.depth

section Same
variable {c c' : Ctx}

theorem ancestorIds_congr {byId byId' : Dict String Event}
    (h : ∀ x, (Dict.get byId x).map Event.parents = (Dict.get byId' x).map Event.parents) (depth : Nat) :
    ancestorIds byId depth = ancestorIds byId' depth := by
  induction depth with
  | zero => rfl
  | succ depth ih =>
    funext x
    unfold ancestorIds
    refine bind_congr fun cache => ?_
    cases Dict.get cache x with
    | some seen => rfl
    | none =>
      dsimp only
      have hx := h x
      cases hb : Dict.get byId x with
      | none =>
        rw [hb] at hx
        rw [Option.map_eq_none_iff.1 hx.symm]
      | some e =>
        rw [hb] at hx
        obtain ⟨e', he', hpar⟩ := Option.map_eq_some_iff.1 hx.symm
        rw [he', ih]
        dsimp only
        rw [hpar]

theorem commonCount_perm {ms ms' : List String} (h : ms.Perm ms') (xs : List String) :
    commonCount xs ms = commonCount xs ms' := by
  unfold commonCount
  rw [List.toFinset_eq_of_perm _ _ h]

variable (h : c.Same c')
include h

theorem canSee_congr : canSee c = canSee c' := by
  funext x y
  unfold canSee
  rw [ancestorIds_congr h.parents, h.depth]

theorem seesSupermajority_congr : seesSupermajority c = seesSupermajority c' := by
  funext x ws
  unfold seesSupermajority
  rw [canSee_congr h, h.members.length_eq]
  refine congr (congrArg Bind.bind (congrArg (collectM · ws) (funext fun w => ?_)))
    (funext fun seen => by rw [commonCount_perm h.members])
  have hw := h.authors w
  cases hb : Dict.get c.byId w with
  | none =>
    rw [hb] at hw
    rw [Option.map_eq_none_iff.1 hw.symm]
  | some e =>
    rw [hb] at hw
    obtain ⟨e', he', hauth⟩ := Option.map_eq_some_iff.1 hw.symm
    rw [he']
    dsimp only
    rw [hauth]

theorem roundStep_congr : roundStep c = roundStep c' := by
  funext t e
  unfold roundStep
  rw [seesSupermajority_congr h]

theorem firstVotes_congr : firstVotes c = firstVotes c' := by
  funext ws w
  unfold firstVotes
  simp only [canSee_congr h, h.members.mem_iff]

theorem visibleVotes_congr : visibleVotes c = visibleVotes c' := by
  funext before votes w
  unfold visibleVotes
  simp only [canSee_congr h, h.members.mem_iff]

theorem laterVotes_congr : laterVotes c = laterVotes c' := by
  funext before later votes
  unfold laterVotes
  simp only [visibleVotes_congr h, h.members.mem_iff, h.members.length_eq]

theorem fameDecisions_congr : fameDecisions c = fameDecisions c' := by
  funext t
  unfold fameDecisions roundFame voteHistory
  rw [firstVotes_congr h, laterVotes_congr h, h.members.length_eq]

theorem seenBySupermajority_congr : seenBySupermajority c = seenBySupermajority c' := by
  funext ws x
  unfold seenBySupermajority
  simp only [canSee_congr h, h.members.length_eq, commonCount_perm h.members]

theorem roundReceived_congr : roundReceived c = roundReceived c' := by
  funext t fame x
  unfold roundReceived receives
  rw [seenBySupermajority_congr h]

theorem recomputePass_congr (topo : List Event) (pathMeta : Dict String (List Hop)) :
    recomputePass c topo pathMeta = recomputePass c' topo pathMeta := by
  unfold recomputePass
  rw [roundStep_congr h, fameDecisions_congr h, roundReceived_congr h, h.members.length_eq]
  simp only [consensusTimestamp_perm h.members]

end Same

/-! ## A pass returns -/

/-- The id and the parent columns of an event. -/
def eventLinks (e : Event) : String × Option String × Option String :=
  (e.id, e.selfParentId, e.otherParentId)

/-- The id and the parents that a state carries over. -/
def stateLinks (st : ConsensusState) : String × Option String × Option String :=
  (st.eventId, st.selfParentId, st.otherParentId)

section Returns
variable {G : List Event} {members : List String} (hG : ParentsFirst G)
include hG

theorem canSee_returns (x y : String) :
    Yields (CacheOk G) (canSee (passCtx G members) x y) fun _ => True :=
  Yields.mono (canSee_computes hG x y) fun _ _ => trivial

theorem roundStep_returns (t : RoundTable) (e : Event) :
    Yields (CacheOk G) (roundStep (passCtx G members) t e) fun _ => True := by
  unfold roundStep
  dsimp only
  split
  · exact Yields.pure trivial
  · exact Yields.bind (seesSupermajority_computes hG _ _) fun _ _ => Yields.pure trivial

theorem rounds_returns (events : List Event) :
    Yields (CacheOk G) (loopM (roundStep (passCtx G members)) {} events) fun _ => True :=
  Yields.loopM (fun _ _ => True) (fun _ e _ _ t _ => roundStep_returns hG t e) trivial

theorem firstVotes_returns (ws : Dict String String) (w : String) :
    Yields (CacheOk G) (firstVotes (passCtx G members) ws w) fun _ => True := by
  unfold firstVotes
  refine Yields.collectM fun p _ => ?_
  split
  · exact (canSee_returns hG _ _).bind fun _ _ => Yields.pure trivial
  · exact Yields.pure trivial

theorem visibleVotes_returns (before : Dict String String) (votes : Votes) (w : String) :
    Yields (CacheOk G) (visibleVotes (passCtx G members) before votes w) fun _ => True := by
  unfold visibleVotes
  refine Yields.collectM fun p _ => ?_
  split
  · split
    · exact (canSee_returns hG _ _).bind fun _ _ => Yields.pure trivial
    · exact Yields.pure trivial
  · exact Yields.pure trivial

theorem laterVotes_returns (before later : Dict String String) (votes : Votes) :
    Yields (CacheOk G) (laterVotes (passCtx G members) before later votes) fun _ => True := by
  unfold laterVotes
  refine Yields.collectM fun p _ => ?_
  split
  · exact (visibleVotes_returns hG _ _ _).bind fun _ _ => Yields.pure trivial
  · exact Yields.pure trivial

theorem voteHistory_returns (t : RoundTable) (rounds : List Nat) (r : Nat) (w : String) :
    Yields (CacheOk G) (voteHistory (passCtx G members) t rounds r w) fun _ => True := by
  unfold voteHistory
  refine (firstVotes_returns hG _ _).bind fun first _ => ?_
  refine Yields.bind (P := fun _ => True) ?_ fun _ _ => Yields.pure trivial
  refine Yields.loopM (fun _ _ => True) (fun _ later _ _ s _ => ?_) trivial
  split
  · exact Yields.pure trivial
  · exact (laterVotes_returns hG _ _ _).bind fun _ _ => Yields.pure trivial

theorem fameDecisions_returns (t : RoundTable) :
    Yields (CacheOk G) (fameDecisions (passCtx G members) t) fun _ => True := by
  unfold fameDecisions roundFame
  refine Yields.collectM fun r _ => Yields.bind (P := fun _ => True) ?_ fun _ _ => Yields.pure trivial
  refine Yields.collectM fun p _ => ?_
  exact (voteHistory_returns hG _ _ _ _).bind fun _ _ => Yields.pure trivial

theorem roundReceived_returns (t : RoundTable) (fame : FameByRound) (x : String) :
    Yields (CacheOk G) (roundReceived (passCtx G members) t fame x) fun _ => True := by
  have hseen : ∀ ws, Yields (CacheOk G) (seenBySupermajority (passCtx G members) ws x) fun _ => True :=
    fun ws => Yields.mono (seenBySupermajority_computes hG ws x) fun _ _ => trivial
  unfold roundReceived
  refine Yields.firstM fun r _ => ?_
  unfold receives
  dsimp only
  split
  · exact hseen _
  · split
    · exact Yields.pure trivial
    · exact hseen _

/-- Every event gets its sort key. -/
theorem resolved_returns (t : RoundTable) (fame : FameByRound) (timestamp : Event → Option Flt) :
    Yields (CacheOk G) (collectM (fun event => do
      let received ← roundReceived (passCtx G members) t fame event.id
      pure (some (event.id, (received.map Int.ofNat, timestamp event)))) G)
      fun resolved => Dict.keys resolved = ids G := by
  refine Yields.collectM_keys _ _ fun e _ => ?_
  exact (roundReceived_returns hG t fame e.id).bind fun _ _ => Yields.pure rfl

theorem recomputePass_returns (members : List String) (pathMeta : Dict String (List Hop)) :
    Yields (CacheOk G) (recomputePass (passCtx G members) G pathMeta) fun states =>
      (states.map stateLinks).Perm (G.map eventLinks) := by
  unfold recomputePass
  refine (rounds_returns hG G).bind fun t _ => (fameDecisions_returns hG t).bind fun fame _ => ?_
  refine (resolved_returns hG t fame _).bind fun resolved _ => ?_
  refine Yields.mono (Yields.collectM_keys eventLinks stateLinks
    fun e _ => (roundReceived_returns hG t fame e.id).bind fun _ _ => Yields.pure rfl) ?_
  intro states hstates
  rw [hstates]
  exact (List.perm_insertionSort _ _).map _

/-- **A pass returns**, with one state for each event, under its id and
with its parents. -/
theorem recompute_returns (engine : ConsensusEngine) (membership : List MembershipEntry)
    (pathMeta : Dict String (List Hop)) :
    ∃ states, engine.recompute G membership pathMeta = some states ∧
      (states.map stateLinks).Perm (G.map eventLinks) := by
  obtain ⟨states, cache, hrun, hlinks, -⟩ :=
    recomputePass_returns hG (engine.normalizeMembership membership) pathMeta [] cacheOk_nil
  exact ⟨states, recompute_of_run hrun, hlinks⟩

end Returns

/-! ## A pass ignores the columns -/

section Columns
variable {G G' : List Event}

theorem ParentsFirst.of_static (h : ParentsFirst G) (hs : G.map Event.static = G'.map Event.static) :
    ParentsFirst G' := by
  have hstatic : ParentsFirst (G.map Event.static) := by
    refine ⟨?_, List.pairwise_map.2 h.later, fun e he => ?_⟩
    · unfold ids
      rw [List.map_map]
      exact h.nodup
    · obtain ⟨e₀, he₀, rfl⟩ := List.mem_map.1 he
      exact h.self e₀ he₀
  rw [hs] at hstatic
  refine ⟨?_, List.pairwise_map.1 hstatic.later, fun e he => ?_⟩
  rotate_left
  · exact hstatic.self e.static (List.mem_map_of_mem he)
  have hn := hstatic.nodup
  unfold ids at hn
  rwa [List.map_map] at hn

theorem get_index_static (G : List Event) (x : String) :
    (Dict.get (indexById G) x).map Event.static = Dict.get (indexById (G.map Event.static)) x := by
  unfold indexById
  rw [List.foldl_map]
  suffices h : ∀ (d d' : Dict String Event), (∀ y, (Dict.get d y).map Event.static = Dict.get d' y) →
      (Dict.get (G.foldl (fun d e => Dict.set d e.id e) d) x).map Event.static =
        Dict.get (G.foldl (fun d e => Dict.set d e.static.id e.static) d') x from h [] [] fun _ => rfl
  induction G with
  | nil => intro d d' h; exact h x
  | cons e G ih =>
    intro d d' h
    refine ih _ _ fun y => ?_
    rw [Dict.get_set, Dict.get_set]
    by_cases hy : e.id = y
    · rw [if_pos hy, if_pos (show e.static.id = y from hy)]
      rfl
    · rw [if_neg hy, if_neg (show e.static.id ≠ y from hy)]
      exact h y

theorem Ctx.same_of_static (hs : G.map Event.static = G'.map Event.static) {members members' : List String}
    (hm : members.Perm members') : (passCtx G members).Same (passCtx G' members') := by
  have hstatic : ∀ x, (Dict.get (indexById G) x).map Event.static =
      (Dict.get (indexById G') x).map Event.static := by
    intro x
    rw [get_index_static, get_index_static, hs]
  refine ⟨fun x => ?_, fun x => ?_, hm, ?_⟩
  · have := congrArg (Option.map Event.parents) (hstatic x)
    rwa [Option.map_map, Option.map_map] at this
  · have := congrArg (Option.map Event.author) (hstatic x)
    rwa [Option.map_map, Option.map_map] at this
  · have := congrArg List.length hs
    rw [List.length_map, List.length_map] at this
    show G.length + 1 = G'.length + 1
    rw [this]

/-- The order of the ids, if all sort keys are resolved. -/
theorem totalOrder_static {resolved : Dict String (Option Int × Option Flt)}
    (h : Dict.keys resolved = ids G) :
    totalOrder (G.map Event.static) resolved = (totalOrder G resolved).map Event.static := by
  have hdecorated : (G.map Event.static).zipIdx.map (fun p => (orderKey resolved p.2 p.1, p.1)) =
      (G.zipIdx.map fun p => (orderKey resolved p.2 p.1, p.1)).map fun p => (p.1, p.2.static) := by
    rw [List.zipIdx_map, List.map_map, List.map_map]
    refine List.map_congr_left fun p hp => ?_
    have hmem : p.1.id ∈ Dict.keys resolved := by
      rw [h]
      exact List.mem_map_of_mem (List.fst_mem_of_mem_zipIdx hp)
    obtain ⟨keys, hkeys⟩ := Dict.mem_keys.1 hmem
    have hkey : orderKey resolved p.2 p.1.static = orderKey resolved p.2 p.1 := by
      unfold orderKey
      rw [show Dict.get resolved p.1.static.id = some keys from hkeys, hkeys]
      rfl
    exact Prod.ext hkey rfl
  unfold totalOrder
  dsimp only
  rw [hdecorated, ListSort.sorted_map, List.map_map, List.map_map]
  rfl

theorem recomputePass_static (hG : ParentsFirst G) (members : List String)
    (pathMeta : Dict String (List Hop)) : ∀ s, CacheOk G s →
      (recomputePass (passCtx G members) (G.map Event.static) pathMeta).run s =
        (recomputePass (passCtx G members) G pathMeta).run s := by
  unfold recomputePass
  rw [loopM_map]
  refine Yields.run_bind_congr (rounds_returns hG G) fun t _ => ?_
  refine Yields.run_bind_congr (fameDecisions_returns hG t) fun fame _ => ?_
  dsimp only
  rw [collectM_map]
  refine Yields.run_bind_congr (resolved_returns hG t fame _) fun resolved hkeys s _ => ?_
  rw [totalOrder_static hkeys, List.map_map]
  have hsort := List.map_insertionSort (r := fun a b : Event =>
      ((totalOrder G resolved).map Event.id).idxOf a.id ≤ ((totalOrder G resolved).map Event.id).idxOf b.id)
    (s := fun a b : Event =>
      ((totalOrder G resolved).map Event.id).idxOf a.id ≤ ((totalOrder G resolved).map Event.id).idxOf b.id)
    Event.static G fun _ _ _ _ => Iff.rfl
  change StateT.run (collectM _ (List.insertionSort (fun a b : Event =>
    ((totalOrder G resolved).map Event.id).idxOf a.id ≤ ((totalOrder G resolved).map Event.id).idxOf b.id)
    (G.map Event.static))) s = _
  rw [← hsort, collectM_map]
  rfl

/-- **A pass reads no column.** The states depend on what the authors wrote,
the hops and the set of members. -/
theorem recompute_congr (hG : ParentsFirst G) (hs : G.map Event.static = G'.map Event.static)
    {engine engine' : ConsensusEngine} {membership membership' : List MembershipEntry}
    (hm : (engine.normalizeMembership membership).Perm (engine'.normalizeMembership membership'))
    (pathMeta : Dict String (List Hop)) :
    engine.recompute G membership pathMeta = engine'.recompute G' membership' pathMeta := by
  have hG' := hG.of_static hs
  have hpass : (recomputePass (passCtx G (engine.normalizeMembership membership)) G pathMeta).run [] =
      (recomputePass (passCtx G' (engine'.normalizeMembership membership')) G' pathMeta).run [] := by
    rw [← recomputePass_static hG _ _ _ cacheOk_nil, ← recomputePass_static hG' _ _ _ cacheOk_nil, ← hs,
      recomputePass_congr (Ctx.same_of_static hs hm)]
  unfold ConsensusEngine.recompute
  rw [StateT.run'_eq, StateT.run'_eq]
  exact congrArg (Functor.map Prod.fst) hpass

end Columns
end Mdrj.L2
