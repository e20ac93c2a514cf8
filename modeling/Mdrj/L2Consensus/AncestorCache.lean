import Mdrj.Core.Dag
import Mdrj.L2Consensus.Engine

/-!
# The ancestor search

`_ancestor_ids` looks the ancestors of an event up in a cache, or collects
them from its parents and enters them. The event map is any map from ids to
events: parents may be missing from it, and an event may stand under another
id than its own.

* What a query returns and what it enters is exact, on any map and whatever
  the recursion limit (`ancestorIds_returns`).
* If no event is an ancestor of itself, a query needs no more depth than there
  are events (`ancestorIds_terminates`).
* `ancestor_queries_exact`: any sequence of queries with one cache.
-/
namespace Mdrj.L2
open Mdrj.Core Mdrj.L1 Relation

/-- The event under `x` lists `p` as a parent. -/
def ParentIn (byId : Dict String Event) (x p : String) : Prop :=
  ∃ e, Dict.get byId x = some e ∧ p ∈ e.parents

/-- The list has exactly the strict ancestors of `x`. -/
def AncestorsOf (byId : Dict String Event) (x : String) (l : List String) : Prop :=
  ∀ y, y ∈ l ↔ TransGen (ParentIn byId) x y

/-- Every entry is exact. -/
def ExactCache (byId : Dict String Event) (cache : AncestorCache) : Prop :=
  ∀ x l, Dict.get cache x = some l → AncestorsOf byId x l

variable {byId : Dict String Event}

theorem exactCache_nil : ExactCache byId [] := fun _ _ h => by cases h

theorem ExactCache.set {cache : AncestorCache} (h : ExactCache byId cache) {x : String} {l : List String}
    (hl : AncestorsOf byId x l) : ExactCache byId (Dict.set cache x l) := by
  intro x' l' hget
  rw [Dict.get_set] at hget
  split at hget
  · next heq =>
    obtain rfl := Option.some.inj hget
    exact heq ▸ hl
  · exact h x' l' hget

/-- An event that is not there has no ancestors. -/
theorem ancestorsOf_missing {x : String} (hx : Dict.get byId x = none) {l : List String} :
    AncestorsOf byId x l ↔ l = [] := by
  have hnone : ∀ y, ¬ TransGen (ParentIn byId) x y := by
    intro y hy
    obtain ⟨p, ⟨e, he, -⟩, -⟩ := TransGen.head'_iff.1 hy
    rw [hx] at he
    cases he
  rw [List.eq_nil_iff_forall_not_mem]
  exact forall_congr' fun y => iff_false_right (hnone y)

/-- The ancestors of an event are its parents and theirs. -/
theorem ancestorsOf_event {x : String} {e : Event} (hx : Dict.get byId x = some e) {l : List String} :
    AncestorsOf byId x l ↔ ∀ y, y ∈ l ↔ ∃ p ∈ e.parents, y = p ∨ TransGen (ParentIn byId) p y := by
  refine forall_congr' fun y => iff_congr Iff.rfl ?_
  rw [TransGen.head'_iff]
  constructor
  · rintro ⟨p, ⟨e', he', hp⟩, hy⟩
    rw [hx] at he'
    obtain rfl := Option.some.inj he'
    exact ⟨p, hp, reflTransGen_iff_eq_or_transGen.1 hy⟩
  · rintro ⟨p, hp, hy⟩
    exact ⟨p, ⟨e, hx, hp⟩, reflTransGen_iff_eq_or_transGen.2 hy⟩

/-! ## One query -/

/-- The loop over the parents. -/
def parentLoop (byId : Dict String Event) (depth : Nat) (parents : List String) : Cached (List String) :=
  loopM (fun seen parentId => do
    let more ← ancestorIds byId depth parentId
    pure (seen.insert parentId ∪ more)) [] parents

/-- How a query goes: a hit, a missing event, or the loop over the parents. -/
theorem ancestorIds_run (depth : Nat) (x : String) (cache : AncestorCache) :
    (ancestorIds byId (depth + 1) x).run cache =
      match Dict.get cache x, Dict.get byId x with
      | some seen, _ => some (seen, cache)
      | none, none => some ([], Dict.set cache x [])
      | none, some event => ((parentLoop byId depth event.parents).run cache).map fun r => (r.1, Dict.set r.2 x r.1) := by
  unfold ancestorIds
  simp only [StateT.run_bind, StateT.run_get, Option.pure_def, Option.bind_eq_bind, Option.bind_some]
  cases hcache : Dict.get cache x with
  | some seen => rfl
  | none =>
    cases hget : Dict.get byId x with
    | none => rfl
    | some event =>
      change (parentLoop byId depth event.parents >>= fun seen =>
        (modify fun cache => Dict.set cache x seen) >>= fun _ => pure seen : Cached (List String)).run cache = _
      rw [StateT.run_bind]
      dsimp only
      cases (parentLoop byId depth event.parents).run cache with
      | none => rfl
      | some r => rfl

/-- Whatever the loop returns is exact if the queries for the parents are. -/
theorem parentLoop_returns {depth : Nat} {parents : List String}
    (h : ∀ p, Returns (ExactCache byId) (ancestorIds byId depth p) (AncestorsOf byId p)) :
    Returns (ExactCache byId) (parentLoop byId depth parents)
      fun l => ∀ y, y ∈ l ↔ ∃ p ∈ parents, y = p ∨ TransGen (ParentIn byId) p y := by
  refine Returns.loopM (fun pre l => ∀ y, y ∈ l ↔ ∃ p ∈ pre, y = p ∨ TransGen (ParentIn byId) p y) ?_ (by simp)
  intro pre p seen hseen
  refine (h p).bind fun more hmore => Returns.pure fun y => ?_
  rw [List.mem_union_iff, List.mem_insert_iff, hseen, hmore]
  simp only [List.mem_append, List.mem_singleton, or_and_right, exists_or, exists_eq_left]
  rw [or_comm (a := y = p), or_assoc]

/-- **A query is exact.** Whatever it returns are the ancestors, and what it
enters is exact. -/
theorem ancestorIds_returns (depth : Nat) : ∀ x,
    Returns (ExactCache byId) (ancestorIds byId depth x) (AncestorsOf byId x) := by
  induction depth with
  | zero =>
    intro x cache _ l cache' hrun
    cases hrun
  | succ depth ih =>
    intro x cache hcache l cache' hrun
    rw [ancestorIds_run] at hrun
    cases hhit : Dict.get cache x with
    | some seen =>
      rw [hhit] at hrun
      obtain ⟨rfl, rfl⟩ := Prod.mk.inj (Option.some.inj hrun)
      exact ⟨hcache x seen hhit, hcache⟩
    | none =>
      cases hget : Dict.get byId x with
      | none =>
        rw [hhit, hget] at hrun
        obtain ⟨rfl, rfl⟩ := Prod.mk.inj (Option.some.inj hrun)
        have hl := (ancestorsOf_missing hget).2 rfl
        exact ⟨hl, hcache.set hl⟩
      | some event =>
        rw [hhit, hget] at hrun
        obtain ⟨⟨seen, filled⟩, hloop, heq⟩ := Option.map_eq_some_iff.1 hrun
        obtain ⟨rfl, rfl⟩ := Prod.mk.inj heq
        -- the entry is written when the loop is through
        obtain ⟨hseen, hfilled⟩ := parentLoop_returns ih cache hcache seen filled hloop
        have hl := (ancestorsOf_event hget).2 hseen
        exact ⟨hl, hfilled.set hl⟩

/-! ## Depth -/

/-- A query returns if the depth of each event, which is positive, exceeds that
of its parents. -/
theorem ancestorIds_terminates {rank : String → Nat} (hpos : ∀ x, 0 < rank x)
    (hlt : ∀ x p, ParentIn byId x p → rank p < rank x) : ∀ (depth : Nat) (x : String), rank x ≤ depth →
    Yields (fun _ => True) (ancestorIds byId depth x) fun _ => True := by
  intro depth
  induction depth with
  | zero =>
    intro x hx
    have := hpos x
    omega
  | succ depth ih =>
    intro x hx cache _
    rw [ancestorIds_run]
    cases hhit : Dict.get cache x with
    | some seen => exact ⟨seen, cache, rfl, trivial, trivial⟩
    | none =>
      cases hget : Dict.get byId x with
      | none => exact ⟨[], _, rfl, trivial, trivial⟩
      | some event =>
        have hloop : Yields (fun _ => True) (parentLoop byId depth event.parents) fun _ => True := by
          refine Yields.loopM (fun _ _ => True) ?_ trivial
          intro pre p post hsplit seen _
          have hp : p ∈ event.parents := by
            rw [hsplit]
            simp
          have hrank := hlt x p ⟨event, hget, hp⟩
          exact (ih p (by omega)).bind fun _ _ => Yields.pure trivial
        obtain ⟨seen, filled, hrun, -, -⟩ := hloop cache trivial
        dsimp only
        rw [hrun]
        exact ⟨seen, _, rfl, trivial, trivial⟩

theorem ancestorIds_yields_ranked {rank : String → Nat} (hpos : ∀ x, 0 < rank x)
    (hlt : ∀ x p, ParentIn byId x p → rank p < rank x) {depth : Nat} {x : String} (hx : rank x ≤ depth) :
    Yields (ExactCache byId) (ancestorIds byId depth x) (AncestorsOf byId x) :=
  (ancestorIds_terminates hpos hlt depth x hx).of_returns (ancestorIds_returns depth x)

/-! ## Many queries -/

/-- Queries one after the other, with one cache. -/
def ancestorQueries (byId : Dict String Event) (depth : Nat) (queries : List String) : Cached (List (List String)) :=
  collectM (fun eventId => do return some (← ancestorIds byId depth eventId)) queries

/-- If no event is an ancestor of itself, a depth above the number of events
suffices. -/
theorem ancestorQueries_terminates (hacyclic : ∀ x, ¬ TransGen (ParentIn byId) x x) {depth : Nat}
    (hdepth : byId.length < depth) (queries : List String) :
    Yields (fun _ => True) (ancestorQueries byId depth queries) fun _ => True := by
  let rank : String → Nat := fun x => (reached (ParentIn byId) (Dict.keys byId).toFinset x).card + 1
  have hpos : ∀ x, 0 < rank x := fun x => Nat.succ_pos _
  have hlt : ∀ x p, ParentIn byId x p → rank p < rank x := by
    intro x p hp
    obtain ⟨e, he, hmem⟩ := hp
    have hx : x ∈ (Dict.keys byId).toFinset := List.mem_toFinset.2 (Dict.mem_keys.2 ⟨e, he⟩)
    exact Nat.succ_lt_succ (reached_lt hacyclic hx ⟨e, he, hmem⟩)
  refine Yields.collectM fun x _ => ?_
  have hrank : rank x ≤ depth := by
    have hle : (reached (ParentIn byId) (Dict.keys byId).toFinset x).card ≤ byId.length :=
      (reached_le x).trans ((List.toFinset_card_le _).trans (List.length_map _).le)
    exact Nat.succ_le_of_lt (hle.trans_lt hdepth)
  exact (ancestorIds_terminates hpos hlt depth x hrank).bind fun _ _ => Yields.pure trivial

/-- **Many queries with one cache.** Whatever the order of the queries and the
shape of the map, each answer that is returned has exactly the ancestors of
its event, and so has every entry of the cache; if no event is an ancestor of
itself, a depth above the number of events suffices for all to return. -/
theorem ancestor_queries_exact (byId : Dict String Event) (depth : Nat) (queries : List String) :
    (∀ answers cache, (ancestorQueries byId depth queries).run [] = some (answers, cache) →
      List.Forall₂ (AncestorsOf byId) queries answers ∧ ExactCache byId cache) ∧
    ((∀ x, ¬ TransGen (ParentIn byId) x x) → byId.length < depth →
      ∃ answers cache, (ancestorQueries byId depth queries).run [] = some (answers, cache)) := by
  constructor
  · intro answers cache hrun
    exact Returns.collectM (fun x _ => ancestorIds_returns depth x) [] exactCache_nil answers cache hrun
  · intro hacyclic hdepth
    obtain ⟨answers, cache, hrun, -, -⟩ := ancestorQueries_terminates hacyclic hdepth queries [] trivial
    exact ⟨answers, cache, hrun⟩

/-- An event with these parents. -/
def bare (parents : List String) : Event where
  id := ""
  cls := .A
  source := "a"
  creator := "a"
  tsLocal := .fin 0
  vclock := []
  parents := parents
  selfParentId := none
  otherParentId := none
  payload := .obj []

/-- Three events, and a parent that is not there. -/
def forked : Dict String Event := [("c", bare ["a", "b"]), ("a", bare ["lost"]), ("b", bare ["a", "lost"])]

theorem forked_acyclic (x : String) : ¬ TransGen (ParentIn forked) x x := by
  let rank : String → Nat := fun x => if x = "c" then 3 else if x = "b" then 2 else if x = "a" then 1 else 0
  have hall : ∀ q ∈ forked, ∀ p ∈ q.2.parents, rank p < rank q.1 := by decide
  have hedge : ∀ x p, ParentIn forked x p → rank p < rank x := by
    rintro x p ⟨e, hget, hp⟩
    exact hall (x, e) (Dict.mem_of_get hget) p hp
  have hpath : ∀ y, TransGen (ParentIn forked) x y → rank y < rank x := by
    intro y hy
    induction hy with
    | single h => exact hedge _ _ h
    | tail _ h ih => exact (hedge _ _ h).trans ih
  exact fun h => Nat.lt_irrefl _ (hpath x h)

/-- A query may come again, and ask for what is not there. -/
theorem ancestor_queries_exact_forked :
    ∃ answers cache, (ancestorQueries forked 4 ["c", "lost", "b", "c"]).run [] = some (answers, cache) ∧
      List.Forall₂ (AncestorsOf forked) ["c", "lost", "b", "c"] answers ∧ ExactCache forked cache := by
  obtain ⟨answers, cache, hrun⟩ :=
    (ancestor_queries_exact forked 4 ["c", "lost", "b", "c"]).2 forked_acyclic (by decide)
  exact ⟨answers, cache, hrun, (ancestor_queries_exact forked 4 _).1 answers cache hrun⟩

end Mdrj.L2
