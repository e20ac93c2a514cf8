import Mdrj.Core.Dag
import Mdrj.L2Consensus.AncestorCache

/-!
# Ancestry, and the cache that computes it

`Par G x p`: the event `x` of `G` lists `p` as a parent (`p` need not be in
`G`); `Anc` is its transitive closure, `Sees` the reflexive one. The cache
of `_ancestor_ids` is exact (`CacheOk`): on events listed parents first,
every query with enough depth returns exactly the ancestors, whatever the
cache already holds, and keeps the cache exact (`ancestorIds_yields`). So
`_can_see` is `Sees` (`canSee_computes`), and the order in which the cache
fills is invisible.
-/
namespace Mdrj.L2
open Mdrj.Core Mdrj.L1 Relation

abbrev ids (G : List Event) : List String := G.map Event.id

def Par (G : List Event) (x p : String) : Prop := ∃ e ∈ G, e.id = x ∧ p ∈ e.parents

def Anc (G : List Event) : String → String → Prop := TransGen (Par G)

def Sees (G : List Event) : String → String → Prop := ReflTransGen (Par G)

/-- Distinct ids, and no event lists itself or a later event as a parent. -/
structure ParentsFirst (G : List Event) : Prop where
  nodup : (ids G).Nodup
  later : G.Pairwise fun a b => b.id ∉ a.parents
  self : ∀ e ∈ G, e.id ∉ e.parents

instance (G : List Event) : Decidable (ParentsFirst G) :=
  decidable_of_iff ((ids G).Nodup ∧ (G.Pairwise fun a b => b.id ∉ a.parents) ∧
      ∀ e ∈ G, e.id ∉ e.parents)
    ⟨fun h => ⟨h.1, h.2.1, h.2.2⟩, fun h => ⟨h.nodup, h.later, h.self⟩⟩

/-- No forks: the events of one author are related by ancestry. -/
def ForkFree (G : List Event) : Prop :=
  ∀ a ∈ G, ∀ b ∈ G, a.author = b.author → a.id = b.id ∨ Anc G a.id b.id ∨ Anc G b.id a.id

variable {G : List Event}

theorem sees_iff {x y : String} : Sees G x y ↔ x = y ∨ Anc G x y := by
  rw [Sees, reflTransGen_iff_eq_or_transGen, eq_comm]; rfl

theorem eq_of_id (h : (ids G).Nodup) {a b : Event} (ha : a ∈ G) (hb : b ∈ G) (he : a.id = b.id) :
    a = b := List.inj_on_of_nodup_map h ha hb he

/-! ## The index -/

theorem get_foldl_index (es : List Event) : ∀ (d : Dict String Event) (x : String),
    (ids es).Nodup →
    Dict.get (es.foldl (fun d e => Dict.set d e.id e) d) x =
      match es.find? (fun e => e.id = x) with
      | some e => some e
      | none => Dict.get d x := by
  induction es with
  | nil => intro d x _; rfl
  | cons e es ih =>
    intro d x hn
    simp only [ids, List.map_cons, List.nodup_cons] at hn
    rw [List.foldl_cons, ih _ _ hn.2, List.find?_cons]
    by_cases hx : e.id = x
    · have hnone : es.find? (fun e => e.id = x) = none := by
        rw [List.find?_eq_none]
        intro a ha he
        exact hn.1 (List.mem_map.2 ⟨a, ha, by simpa [hx] using he⟩)
      rw [hnone, ← hx]
      simpa using Dict.get_set_self d e.id e
    · simp only [hx, decide_false]
      rw [Dict.get_set_ne _ _ hx]

theorem get_indexById (h : (ids G).Nodup) {x : String} {e : Event} :
    Dict.get (indexById G) x = some e ↔ e ∈ G ∧ e.id = x := by
  rw [indexById, get_foldl_index G [] x h]
  constructor
  · intro he
    split at he
    · rename_i a ha
      cases he
      exact ⟨List.mem_of_find?_eq_some ha, by simpa using List.find?_some ha⟩
    · cases he
  · rintro ⟨he, hx⟩
    split
    · rename_i a ha
      have hax : a.id = x := by simpa using List.find?_some ha
      rw [eq_of_id h (List.mem_of_find?_eq_some ha) he (hax.trans hx.symm)]
    · rename_i hnone
      rw [List.find?_eq_none] at hnone
      exact absurd hx (by simpa using hnone e he)

theorem get_indexById_none (h : (ids G).Nodup) {x : String} :
    Dict.get (indexById G) x = none ↔ x ∉ ids G := by
  constructor
  · intro hn hx
    obtain ⟨e, he, hid⟩ := List.mem_map.1 hx
    rw [(get_indexById h).2 ⟨he, hid⟩] at hn; cases hn
  · intro hx
    cases hg : Dict.get (indexById G) x with
    | none => rfl
    | some e =>
      obtain ⟨he, hid⟩ := (get_indexById h).1 hg
      exact absurd (List.mem_map.2 ⟨e, he, hid⟩) hx

/-! ## Ancestors, one parent at a time -/

theorem not_anc_of_not_mem {x y : String} (hx : x ∉ ids G) : ¬ Anc G x y := by
  intro h
  obtain ⟨p, ⟨e, he, hid, -⟩, -⟩ := TransGen.head'_iff.1 h
  exact hx (List.mem_map.2 ⟨e, he, hid⟩)

theorem ParentsFirst.not_mem_prefix {pre post : List Event} {e : Event}
    (h : ParentsFirst (pre ++ e :: post)) : e.id ∉ ids pre := by
  have hn := h.nodup
  simp only [ids, List.map_append, List.map_cons] at hn
  rw [List.nodup_append] at hn
  exact fun hm => hn.2.2 e.id hm e.id List.mem_cons_self rfl

/-- In a list of parents first, a parent stands before its child. -/
theorem ParentsFirst.idxOf_lt (h : ParentsFirst G) {e : Event} (he : e ∈ G) {p : String}
    (hp : p ∈ e.parents) (hpG : p ∈ ids G) : (ids G).idxOf p < (ids G).idxOf e.id := by
  obtain ⟨pre, post, rfl⟩ := List.append_of_mem he
  have hpre : p ∈ ids pre := by
    simp only [ids, List.map_append, List.map_cons, List.mem_append, List.mem_cons] at hpG
    rcases hpG with hpG | rfl | hpG
    · exact hpG
    · exact absurd hp (h.self e he)
    · obtain ⟨b, hb, rfl⟩ := List.mem_map.1 hpG
      have hl := (List.pairwise_append.1 h.later).2.1
      exact absurd hp ((List.pairwise_cons.1 hl).1 b hb)
  have e1 : (ids (pre ++ e :: post)).idxOf e.id = (ids pre).length := by
    rw [ids, List.map_append, List.idxOf_append_of_notMem h.not_mem_prefix]
    simp
  rw [e1, ids, List.map_append, List.idxOf_append_of_mem hpre]
  exact List.idxOf_lt_length_of_mem hpre

theorem ParentsFirst.anc_idxOf_lt (h : ParentsFirst G) {x y : String} (hxy : Anc G x y)
    (hy : y ∈ ids G) : (ids G).idxOf y < (ids G).idxOf x := by
  induction hxy using TransGen.head_induction_on with
  | single hstep =>
    obtain ⟨e, he, rfl, hp⟩ := hstep
    exact h.idxOf_lt he hp hy
  | head hstep hrest ih =>
    obtain ⟨e, he, rfl, hp⟩ := hstep
    obtain ⟨q, ⟨e', he', hid, -⟩, -⟩ := TransGen.head'_iff.1 hrest
    have := h.idxOf_lt he hp (List.mem_map.2 ⟨e', he', hid⟩)
    omega

theorem ParentsFirst.anc_irrefl (h : ParentsFirst G) (x : String) : ¬ Anc G x x := by
  intro hx
  by_cases hm : x ∈ ids G
  · exact Nat.lt_irrefl _ (h.anc_idxOf_lt hx hm)
  · exact not_anc_of_not_mem hm hx

theorem ids_append (pre post : List Event) : ids (pre ++ post) = ids pre ++ ids post :=
  List.map_append

/-- The ancestors of an event stand before it. -/
theorem ParentsFirst.anc_prefix {pre post : List Event} {e : Event}
    (h : ParentsFirst (pre ++ e :: post)) {x y : String} (hx : x ∈ ids pre ∨ x = e.id)
    (hxy : Anc (pre ++ e :: post) x y) (hy : y ∈ ids (pre ++ e :: post)) : y ∈ ids pre := by
  have hlt := h.anc_idxOf_lt hxy hy
  have hxl : (ids (pre ++ e :: post)).idxOf x ≤ (ids pre).length := by
    rcases hx with hx | rfl
    · rw [ids_append, List.idxOf_append_of_mem hx]
      exact (List.idxOf_lt_length_of_mem hx).le
    · rw [ids_append, List.idxOf_append_of_notMem h.not_mem_prefix]
      simp
  by_contra hn
  have hyl : (ids pre).length ≤ (ids (pre ++ e :: post)).idxOf y := by
    rw [ids_append, List.idxOf_append_of_notMem hn]
    omega
  omega

/-! ## Authors and views -/

/-- `x` is an event of `G` whose author is `c`. -/
def Auth (G : List Event) (x c : String) : Prop := ∃ e ∈ G, e.id = x ∧ e.author = c

theorem Auth.mem {x c : String} (h : Auth G x c) : x ∈ ids G := by
  obtain ⟨e, he, rfl, -⟩ := h
  exact List.mem_map_of_mem he

theorem Auth.unique (hn : (ids G).Nodup) {x c d : String} (h : Auth G x c) (h' : Auth G x d) :
    c = d := by
  obtain ⟨e, he, hx, rfl⟩ := h
  obtain ⟨e', he', hx', rfl⟩ := h'
  rw [eq_of_id hn he he' (hx.trans hx'.symm)]

theorem ForkFree.auth (h : ForkFree G) {x y c : String} (hx : Auth G x c) (hy : Auth G y c) :
    x = y ∨ Anc G x y ∨ Anc G y x := by
  obtain ⟨a, ha, rfl, rfl⟩ := hx
  obtain ⟨b, hb, rfl, hab⟩ := hy
  exact h a ha b hb hab.symm

/-- The events of `G` are events of `G'` (up to the consensus columns), and
`G` holds every parent of its events that `G'` has. -/
structure View (G G' : List Event) : Prop where
  sub : ∀ e ∈ G, ∃ e' ∈ G', e'.static = e.static
  closed : ∀ e ∈ G, ∀ p ∈ e.parents, p ∈ ids G' → p ∈ ids G

theorem static_id {e e' : Event} (h : e'.static = e.static) : e'.id = e.id :=
  (congrArg Event.id h : e'.static.id = e.static.id)

theorem static_author {e e' : Event} (h : e'.static = e.static) : e'.author = e.author :=
  (congrArg Event.author h : e'.static.author = e.static.author)

theorem static_parents {e e' : Event} (h : e'.static = e.static) : e'.parents = e.parents :=
  (congrArg Event.parents h : e'.static.parents = e.static.parents)

theorem View.refl (G : List Event) : View G G := ⟨fun e he => ⟨e, he, rfl⟩, fun _ _ _ _ hp => hp⟩

/-- What arrived first is a view of what is there later. -/
theorem ParentsFirst.view_prefix {pre post : List Event} (h : ParentsFirst (pre ++ post)) :
    View pre (pre ++ post) := by
  refine ⟨fun e he => ⟨e, List.mem_append_left _ he, rfl⟩, fun e he p hp hpG => ?_⟩
  rw [ids_append, List.mem_append] at hpG
  rcases hpG with hpG | hpG
  · exact hpG
  · obtain ⟨b, hb, rfl⟩ := List.mem_map.1 hpG
    exact absurd hp ((List.pairwise_append.1 h.later).2.2 e he b hb)

theorem ParentsFirst.of_initial {pre post : List Event} (h : ParentsFirst (pre ++ post)) :
    ParentsFirst pre where
  nodup := by
    have hn := h.nodup
    rw [ids_append] at hn
    exact hn.of_append_left
  later := (List.pairwise_append.1 h.later).1
  self := fun e he => h.self e (List.mem_append_left _ he)

variable {G' : List Event}

theorem View.mem_ids (h : View G G') {x : String} (hx : x ∈ ids G) : x ∈ ids G' := by
  obtain ⟨e, he, rfl⟩ := List.mem_map.1 hx
  obtain ⟨e', he', hs⟩ := h.sub e he
  exact static_id hs ▸ List.mem_map_of_mem he'

/-- What `G'` says about an event of `G`, `G` says. -/
theorem View.event (h : View G G') (hn : (ids G').Nodup) {e' : Event} (he' : e' ∈ G')
    (hx : e'.id ∈ ids G) : ∃ e ∈ G, e'.static = e.static := by
  obtain ⟨e, he, hid⟩ := List.mem_map.1 hx
  obtain ⟨e'', he'', hs⟩ := h.sub e he
  have := eq_of_id hn he'' he' ((static_id hs).trans hid)
  exact ⟨e, he, this ▸ hs⟩

theorem View.par_iff (h : View G G') (hn : (ids G').Nodup) {x : String} (hx : x ∈ ids G)
    (p : String) : Par G x p ↔ Par G' x p := by
  constructor
  · rintro ⟨e, he, rfl, hp⟩
    obtain ⟨e', he', hs⟩ := h.sub e he
    exact ⟨e', he', static_id hs, (static_parents hs).symm ▸ hp⟩
  · rintro ⟨e', he', rfl, hp⟩
    obtain ⟨e, he, hs⟩ := h.event hn he' hx
    exact ⟨e, he, (static_id hs).symm, static_parents hs ▸ hp⟩

theorem View.grows (h : View G G') (hn : (ids G').Nodup) :
    Grows (Par G) (Par G') (· ∈ ids G) where
  same := fun hx p => h.par_iff hn hx p
  closed := by
    intro x p hx hp
    by_cases hpG : p ∈ ids G'
    · obtain ⟨e, he, rfl, hpe⟩ := (h.par_iff hn hx p).2 hp
      exact .inl (h.closed e he p hpe hpG)
    · refine .inr fun q hq => ?_
      obtain ⟨e, he, rfl, -⟩ := hq
      exact hpG (List.mem_map_of_mem he)
  leaf := by
    rintro x hx p ⟨e, he, rfl, -⟩
    exact hx (List.mem_map_of_mem he)

theorem View.anc_iff (h : View G G') (hn : (ids G').Nodup) {x y : String} (hx : x ∈ ids G) :
    Anc G x y ↔ Anc G' x y := (h.grows hn).transGen_iff hx

theorem View.sees_iff (h : View G G') (hn : (ids G').Nodup) {x y : String} (hx : x ∈ ids G) :
    Sees G x y ↔ Sees G' x y := (h.grows hn).reflTransGen_iff hx

theorem View.auth_iff (h : View G G') (hn : (ids G').Nodup) {x c : String} (hx : x ∈ ids G) :
    Auth G x c ↔ Auth G' x c := by
  constructor
  · rintro ⟨e, he, rfl, rfl⟩
    obtain ⟨e', he', hs⟩ := h.sub e he
    exact ⟨e', he', static_id hs, static_author hs⟩
  · rintro ⟨e', he', rfl, rfl⟩
    obtain ⟨e, he, hs⟩ := h.event hn he' hx
    exact ⟨e, he, (static_id hs).symm, (static_author hs).symm⟩

/-- An event of `G'` that an event of `G` descends from is in `G`. -/
theorem View.mem_of_anc (h : View G G') (hn : (ids G').Nodup) {x y : String} (hx : x ∈ ids G)
    (hxy : Anc G' x y) (hy : y ∈ ids G') : y ∈ ids G := by
  induction hxy using TransGen.head_induction_on with
  | single hstep =>
    obtain ⟨e, he, rfl, hp⟩ := (h.par_iff hn hx _).2 hstep
    exact h.closed e he _ hp hy
  | head hstep hrest ih =>
    obtain ⟨e, he, rfl, hp⟩ := (h.par_iff hn hx _).2 hstep
    obtain ⟨q, ⟨e', he', hid, -⟩, -⟩ := TransGen.head'_iff.1 hrest
    exact ih (h.closed e he _ hp (List.mem_map.2 ⟨e', he', hid⟩))

theorem View.mem_of_sees (h : View G G') (hn : (ids G').Nodup) {x y : String} (hx : x ∈ ids G)
    (hxy : Sees G' x y) (hy : y ∈ ids G') : y ∈ ids G := by
  rcases Mdrj.L2.sees_iff.1 hxy with rfl | hxy
  · exact hx
  · exact h.mem_of_anc hn hx hxy hy

/-! ## The cache -/

/-- Every cached set is the set of ancestors of its key. -/
def CacheOk (G : List Event) (cache : AncestorCache) : Prop :=
  ∀ x l, Dict.get cache x = some l → ∀ y, y ∈ l ↔ Anc G x y

theorem cacheOk_nil : CacheOk G [] := fun _ _ h => by cases h

/-- The depth a query from `x` needs: one more than the events before `x`. -/
def need (G : List Event) (x : String) : Nat := if x ∈ ids G then (ids G).idxOf x + 2 else 1

theorem parentIn_indexById (h : (ids G).Nodup) : ParentIn (indexById G) = Par G := by
  funext x p
  refine propext ⟨?_, ?_⟩
  · rintro ⟨e, hget, hp⟩
    obtain ⟨he, hid⟩ := (get_indexById h).1 hget
    exact ⟨e, he, hid, hp⟩
  · rintro ⟨e, he, hid, hp⟩
    exact ⟨e, (get_indexById h).2 ⟨he, hid⟩, hp⟩

theorem need_pos (x : String) : 0 < need G x := by
  unfold need
  split <;> omega

theorem ParentsFirst.need_lt (h : ParentsFirst G) {x p : String} (hp : Par G x p) : need G p < need G x := by
  obtain ⟨e, he, rfl, hp⟩ := hp
  unfold need
  rw [if_pos (List.mem_map_of_mem he)]
  split
  · next hpG =>
    have := h.idxOf_lt he hp hpG
    omega
  · omega

theorem ancestorIds_yields (h : ParentsFirst G) (depth : Nat) (x : String) (hneed : need G x ≤ depth) :
    Yields (CacheOk G) (ancestorIds (indexById G) depth x) fun l => ∀ y, y ∈ l ↔ Anc G x y := by
  have hpar := parentIn_indexById h.nodup
  have hyields : Yields (ExactCache (indexById G)) (ancestorIds (indexById G) depth x)
      (AncestorsOf (indexById G) x) :=
    ancestorIds_yields_ranked need_pos (fun x p hp => h.need_lt (hpar ▸ hp)) hneed
  unfold ExactCache AncestorsOf at hyields
  rw [hpar] at hyields
  exact hyields

theorem need_le (x : String) : need G x ≤ G.length + 1 := by
  unfold need
  split
  · rename_i hx
    have hlt := List.idxOf_lt_length_of_mem hx
    rw [List.length_map] at hlt
    omega
  · omega

/-- What a pass over `G` fixes. -/
def passCtx (G : List Event) (members : List String) : Ctx := ⟨indexById G, members, G.length + 1⟩

open Classical in
/-- **The cache is invisible.** `_can_see` answers reachability, whatever the
cache holds. -/
theorem canSee_computes (h : ParentsFirst G) {members : List String} (x y : String) :
    Computes (CacheOk G) (canSee (passCtx G members) x y) (decide (Sees G x y)) := by
  unfold canSee
  split
  · rename_i he
    exact Yields.pure (by simp [sees_iff, he])
  · rename_i hne
    refine (ancestorIds_yields h _ x (need_le x)).bind fun l hl => Yields.pure ?_
    simp [sees_iff, hne, hl]

/-! ## Checking ancestry by running the search -/

/-- The ancestors the engine finds from an empty cache. -/
def ancestors (G : List Event) (x : String) : List String :=
  ((ancestorIds (indexById G) (G.length + 1) x).run' []).getD []

theorem mem_ancestors (h : ParentsFirst G) {x y : String} : y ∈ ancestors G x ↔ Anc G x y := by
  obtain ⟨l, cache, hrun, hl, -⟩ := ancestorIds_yields h _ x (need_le x) [] cacheOk_nil
  have : ancestors G x = l := by
    unfold ancestors
    rw [StateT.run'_eq, hrun]
    rfl
  rw [this, hl]

theorem forkFree_of_ancestors (h : ParentsFirst G)
    (hc : ∀ a ∈ G, ∀ b ∈ G, a.author = b.author →
      a.id = b.id ∨ b.id ∈ ancestors G a.id ∨ a.id ∈ ancestors G b.id) : ForkFree G := by
  intro a ha b hb hab
  rcases hc a ha b hb hab with he | hm | hm
  · exact .inl he
  · exact .inr (.inl ((mem_ancestors h).1 hm))
  · exact .inr (.inr ((mem_ancestors h).1 hm))

end Mdrj.L2
