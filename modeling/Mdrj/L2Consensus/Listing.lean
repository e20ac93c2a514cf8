import Mathlib.Data.List.Find
import Mdrj.L2Consensus.Ancestry

/-!
# The round loop on any list

The round loop reads a table that it fills as it goes: an event's round
depends on the witnesses recorded so far, and an event is a witness when its
author has none in the round yet. On a list with the parents first, forks
or not, the loop ends with a table in which

* the witness of an author in a round is its first event of the list there
  (`firstAt`),
* the round of an event is the greatest round of a parent, or one more when
  it descends from a supermajority of that round's witnesses (`RoundBy`).

`ListInv` states this of the table after an initial part of the list, and
`listing_yields` proves it of the loop.
-/
namespace Mdrj.L2
open Mdrj.Core Mdrj.L1 Relation

variable {G pre post : List Event} {members : List String} {R R' : String → Nat} {e : Event}
  {t : RoundTable}

/-! ## The first event of an author in a round -/

def firstAt (G : List Event) (R : String → Nat) (r : Nat) (c : String) : Option String :=
  (G.find? fun e => e.author = c ∧ R e.id = r).map Event.id

theorem firstAt_append (pre : List Event) (e : Event) (R : String → Nat) (r : Nat) (c : String) :
    firstAt (pre ++ [e]) R r c =
      (firstAt pre R r c).or (if e.author = c ∧ R e.id = r then some e.id else none) := by
  unfold firstAt
  rw [List.find?_append]
  cases pre.find? fun e => e.author = c ∧ R e.id = r with
  | some w => rfl
  | none =>
    by_cases h : e.author = c ∧ R e.id = r
    · simp [h]
    · simp [h]

theorem firstAt_congr (h : ∀ e ∈ G, R e.id = R' e.id) (r : Nat) (c : String) :
    firstAt G R r c = firstAt G R' r c := by
  unfold firstAt
  rw [List.find?_congr fun e he => by rw [h e he]]

theorem firstAt_some {r : Nat} {c w : String} (h : firstAt G R r c = some w) :
    Auth G w c ∧ R w = r := by
  obtain ⟨e, he, rfl⟩ := Option.map_eq_some_iff.1 h
  have hsome := List.find?_some he
  obtain ⟨hc, hr⟩ : e.author = c ∧ R e.id = r := of_decide_eq_true hsome
  exact ⟨⟨e, List.mem_of_find?_eq_some he, rfl, hc⟩, hr⟩

theorem exists_firstAt {x c : String} (h : Auth G x c) (R : String → Nat) :
    ∃ w, firstAt G R (R x) c = some w := by
  obtain ⟨e, he, rfl, rfl⟩ := h
  unfold firstAt
  cases hf : G.find? fun e' => e'.author = e.author ∧ R e'.id = R e.id with
  | some w => exact ⟨w.id, rfl⟩
  | none =>
    rw [List.find?_eq_none] at hf
    exact absurd (decide_eq_true ⟨rfl, rfl⟩) (hf e he)

/-- No event of the author in the round stands before its first one. -/
theorem firstAt_le (hn : (ids G).Nodup) {r : Nat} {c w y : String} (h : firstAt G R r c = some w)
    (hy : Auth G y c) (hr : R y = r) : (ids G).idxOf w ≤ (ids G).idxOf y := by
  obtain ⟨e, he, rfl⟩ := Option.map_eq_some_iff.1 h
  obtain ⟨-, pre, post, rfl, hbefore⟩ := List.find?_eq_some_iff_append.1 he
  have hw : (ids (pre ++ e :: post)).idxOf e.id ≤ pre.length := by
    rw [ids_append, ids, ids, List.map_cons]
    by_cases hmem : e.id ∈ pre.map Event.id
    · rw [List.idxOf_append_of_mem hmem]
      have := List.idxOf_lt_length_of_mem hmem
      rw [List.length_map] at this
      omega
    · rw [List.idxOf_append_of_notMem hmem]
      simp
  refine hw.trans ?_
  have hnot : y ∉ ids pre := by
    intro hmem
    obtain ⟨a, ha, rfl⟩ := List.mem_map.1 hmem
    have hac : a.author = c :=
      Auth.unique hn ⟨a, List.mem_append_left _ ha, rfl, rfl⟩ hy
    have := hbefore a ha
    simp [hac, hr] at this
  rw [ids_append, List.idxOf_append_of_notMem hnot, ids, List.length_map]
  omega

/-! ## The equation of a round -/

/-- `b` is the greatest round of a parent of `x` in `G`, zero without one. -/
structure IsBase (G : List Event) (R : String → Nat) (x : String) (b : Nat) : Prop where
  ge : ∀ p, Par G x p → p ∈ ids G → R p ≤ b
  attained : b = 0 ∨ ∃ p, Par G x p ∧ p ∈ ids G ∧ R p = b

theorem IsBase.unique {x : String} {b b' : Nat} (h : IsBase G R x b) (h' : IsBase G R x b') :
    b = b' := by
  have key : ∀ {b b'}, IsBase G R x b → IsBase G R x b' → b ≤ b' := by
    intro b b' h h'
    rcases h.attained with rfl | ⟨p, hp, hpG, rfl⟩
    · exact Nat.zero_le _
    · exact h'.ge p hp hpG
  exact Nat.le_antisymm (key h h') (key h' h)

theorem IsBase.congr {x : String} {b : Nat} (h : IsBase G R x b)
    (hR : ∀ p, Par G x p → p ∈ ids G → R p = R' p) : IsBase G R' x b := by
  refine ⟨fun p hp hpG => hR p hp hpG ▸ h.ge p hp hpG, ?_⟩
  rcases h.attained with hb | ⟨p, hp, hpG, hr⟩
  · exact .inl hb
  · exact .inr ⟨p, hp, hpG, hR p hp hpG ▸ hr⟩

/-- The round of `x`, when `seen b` are the members whose witness of round
`b` it descends from. -/
def RoundBy (G : List Event) (members : List String) (R : String → Nat) (seen : Nat → Finset String)
    (x : String) : Prop :=
  ∃ b, IsBase G R x b ∧
    R x = if supermajorityThreshold members.length ≤ (seen b).card then b + 1 else b

theorem RoundBy.congr {seen seen' : Nat → Finset String} {x : String} (h : RoundBy G members R seen x)
    (hx : R x = R' x) (hpar : ∀ p, Par G x p → p ∈ ids G → R p = R' p)
    (hseen : ∀ b, seen b = seen' b) : RoundBy G members R' seen' x := by
  obtain ⟨b, hb, hr⟩ := h
  exact ⟨b, hb.congr hpar, by rw [← hx, hr, hseen]⟩

open Classical in
/-- The members whose first event of round `b` among `pre` is an ancestor of
`x`. -/
noncomputable def seenFirst (G pre : List Event) (members : List String) (R : String → Nat) (b : Nat)
    (x : String) : Finset String :=
  members.toFinset.filter fun c => ∃ w, firstAt pre R b c = some w ∧ Anc G x w

theorem mem_seenFirst {b : Nat} {x c : String} : c ∈ seenFirst G pre members R b x ↔
    c ∈ members ∧ ∃ w, firstAt pre R b c = some w ∧ Anc G x w := by
  simp only [seenFirst, Finset.mem_filter, List.mem_toFinset]

theorem seenFirst_congr (h : ∀ e ∈ pre, R e.id = R' e.id) (b : Nat) (x : String) :
    seenFirst G pre members R b x = seenFirst G pre members R' b x := by
  ext c
  rw [mem_seenFirst, mem_seenFirst, firstAt_congr h]

/-- Events listed after `x` are no ancestors of it. -/
theorem seenFirst_append (hG : ParentsFirst G) (hsplit : G = pre ++ e :: post) (b : Nat) {x : String}
    (hx : x ∈ ids pre ∨ x = e.id) :
    seenFirst G (pre ++ [e]) members R b x = seenFirst G pre members R b x := by
  ext c
  rw [mem_seenFirst, mem_seenFirst]
  refine and_congr_right fun _ => exists_congr fun w => and_congr_left fun hw => ?_
  have hne : w ≠ e.id := by
    rintro rfl
    subst hsplit
    exact hG.not_mem_prefix (hG.anc_prefix hx hw (by simp [ids]))
  rw [firstAt_append]
  cases firstAt pre R b c with
  | some w' => rfl
  | none =>
    simp only [Option.none_or, Option.ite_none_right_eq_some, Option.some.injEq, reduceCtorEq, iff_false]
    exact fun h => hne h.2.symm

/-! ## The table -/

/-- `rounds.get(x, 0)`. -/
def RoundTable.round (t : RoundTable) (x : String) : Nat := (Dict.get t.rounds x).getD 0

/-- The table after the events `pre` of `G`. -/
structure ListInv (G : List Event) (members : List String) (pre : List Event) (t : RoundTable) :
    Prop where
  dom : ∀ x, x ∈ Dict.keys t.rounds ↔ x ∈ ids pre
  rounds : ∀ x ∈ ids pre, RoundBy G members t.round (fun b => seenFirst G pre members t.round b x) x
  wits : ∀ r c, Dict.get (t.witnesses r) c = firstAt pre t.round r c
  flags : ∀ e ∈ pre, Dict.get t.witnessFlags e.id =
    some (decide (firstAt pre t.round (t.round e.id) e.author = some e.id))
  nodup : ∀ r, (Dict.keys (t.witnesses r)).Nodup
  roundsNodup : (Dict.keys t.witnessesByRound).Nodup
  filled : ∀ r, r ∈ Dict.keys t.witnessesByRound ↔ ∃ x ∈ ids pre, t.round x = r

theorem listInv_nil : ListInv G members [] {} where
  dom := by intro x; simp
  rounds := by intro x hx; cases hx
  wits := by intro r c; rfl
  flags := by intro e he; cases he
  nodup := by intro r; simp [RoundTable.witnesses]
  roundsNodup := by simp
  filled := by intro r; simp

theorem foldl_max_le (xs : List Nat) : ∀ a b : Nat, xs.foldl max a ≤ b ↔ a ≤ b ∧ ∀ x ∈ xs, x ≤ b := by
  induction xs with
  | nil => simp
  | cons x xs ih =>
    intro a b
    rw [List.foldl_cons, ih, Nat.max_le, List.forall_mem_cons, and_assoc]

theorem foldl_max_mem (xs : List Nat) : ∀ a : Nat, xs.foldl max a = a ∨ xs.foldl max a ∈ xs := by
  induction xs with
  | nil => simp
  | cons x xs ih =>
    intro a
    rw [List.foldl_cons]
    rcases ih (max a x) with h | h
    · rw [h]
      rcases Nat.le_total a x with hax | hax
      · exact .inr (by simp [Nat.max_eq_right hax])
      · exact .inl (Nat.max_eq_left hax)
    · exact .inr (List.mem_cons_of_mem _ h)

/-- The greatest of the rounds that `f` gives to the parents of an event. -/
theorem isBase_foldl (hn : (ids G).Nodup) (he : e ∈ G) {f : String → Option Nat}
    (hf : ∀ p ∈ e.parents, ∀ r, f p = some r ↔ p ∈ ids G ∧ R p = r) :
    IsBase G R e.id ((e.parents.filterMap f).foldl max 0) := by
  have hval : ∀ r, r ∈ e.parents.filterMap f ↔ ∃ p, Par G e.id p ∧ p ∈ ids G ∧ R p = r := by
    intro r
    rw [List.mem_filterMap]
    constructor
    · rintro ⟨p, hp, hr⟩
      exact ⟨p, ⟨e, he, rfl, hp⟩, (hf p hp r).1 hr⟩
    · rintro ⟨p, ⟨e', he', hid, hp⟩, hr⟩
      obtain rfl := eq_of_id hn he' he hid
      exact ⟨p, hp, (hf p hp r).2 hr⟩
  have hle := (foldl_max_le (e.parents.filterMap f) 0 _).1 le_rfl
  refine ⟨fun p hp hpG => hle.2 _ ((hval _).2 ⟨p, hp, hpG, rfl⟩), ?_⟩
  rcases foldl_max_mem (e.parents.filterMap f) 0 with h0 | hm
  · exact .inl h0
  · exact .inr ((hval _).1 hm)

@[simp] theorem assign_round (t : RoundTable) (e : Event) (r : Nat) (x : String) :
    (t.assign e r).round x = if e.id = x then r else t.round x := by
  simp only [RoundTable.round, RoundTable.assign, Dict.get_set]
  split <;> rfl

theorem assign_witnesses (t : RoundTable) (e : Event) (r r' : Nat) :
    (t.assign e r).witnesses r' = if r = r' then
      (if e.author ∉ Dict.keys (t.witnesses r) then Dict.set (t.witnesses r) e.author e.id
        else t.witnesses r)
      else t.witnesses r' := by
  unfold RoundTable.assign RoundTable.witnesses
  rw [Dict.get_set]
  split
  · by_cases hk : e.author ∈ Dict.keys ((Dict.get t.witnessesByRound r).getD [])
    · simp [hk]
    · simp [hk]
  · rfl

/-- A slot is filled once, by the first event that comes for it. -/
theorem assign_get (t : RoundTable) (e : Event) (r r' : Nat) (c : String) :
    Dict.get ((t.assign e r).witnesses r') c =
      (Dict.get (t.witnesses r') c).or (if e.author = c ∧ r = r' then some e.id else none) := by
  rw [assign_witnesses]
  by_cases hr : r = r'
  · subst hr
    rw [if_pos rfl]
    by_cases hk : e.author ∈ Dict.keys (t.witnesses r)
    · rw [if_neg (not_not.2 hk)]
      by_cases hc : e.author = c
      · subst hc
        obtain ⟨w, hw⟩ := Dict.mem_keys.1 hk
        rw [hw]
        rfl
      · rw [if_neg fun h => hc h.1, Option.or_none]
    · rw [if_pos hk, Dict.get_set]
      by_cases hc : e.author = c
      · subst hc
        rw [if_pos rfl, if_pos ⟨rfl, rfl⟩, Dict.get_eq_none.2 hk]
        rfl
      · rw [if_neg hc, if_neg fun h => hc h.1, Option.or_none]
  · rw [if_neg hr, if_neg fun h => hr h.2, Option.or_none]

section Step
variable (h : ListInv G members pre t) (hG : ParentsFirst G) (hsplit : G = pre ++ e :: post)

theorem ListInv.get_rounds (h : ListInv G members pre t) {x : String} {r : Nat} :
    Dict.get t.rounds x = some r ↔ x ∈ ids pre ∧ t.round x = r := by
  unfold RoundTable.round
  rw [← h.dom, Dict.mem_keys]
  constructor
  · intro hr; exact ⟨⟨r, hr⟩, by simp [hr]⟩
  · rintro ⟨⟨v, hv⟩, hr⟩; simpa [hv] using hr

include hG hsplit

theorem ne_of_mem_before {x : String} (hx : x ∈ ids pre) : e.id ≠ x := by
  subst hsplit
  rintro rfl
  exact hG.not_mem_prefix hx

/-- The parents of an event stand before it. -/
theorem mem_before_of_par {x p : String} (hx : x ∈ ids pre ∨ x = e.id) (hp : Par G x p)
    (hpG : p ∈ ids G) : p ∈ ids pre := by
  subst hsplit
  exact hG.anc_prefix hx (TransGen.single hp) hpG

include h in
/-- `base_round` is the greatest round of a parent. -/
theorem ListInv.isBase : IsBase G t.round e.id (t.baseRound e) := by
  have he : e ∈ G := by rw [hsplit]; simp
  refine isBase_foldl hG.nodup he fun p hp r => h.get_rounds.trans ?_
  refine and_congr_left fun _ => ⟨fun hpre => ?_, fun hpG => ?_⟩
  · rw [hsplit, ids_append]
    exact List.mem_append_left _ hpre
  · exact mem_before_of_par hG hsplit (.inr rfl) ⟨e, he, rfl, hp⟩ hpG

theorem assign_round_before {x : String} (hx : x ∈ ids pre) (r : Nat) :
    t.round x = (t.assign e r).round x := by
  rw [assign_round, if_neg (ne_of_mem_before hG hsplit hx)]

theorem assign_agrees (t : RoundTable) (r : Nat) : ∀ a ∈ pre, t.round a.id = (t.assign e r).round a.id :=
  fun _ ha => assign_round_before hG hsplit (List.mem_map_of_mem ha) r

theorem firstAt_assign (r r' : Nat) (c : String) : firstAt (pre ++ [e]) (t.assign e r).round r' c =
    (firstAt pre t.round r' c).or (if e.author = c ∧ r = r' then some e.id else none) := by
  rw [firstAt_append, assign_round, if_pos rfl, ← firstAt_congr (assign_agrees hG hsplit t r)]

theorem seenFirst_assign (r b : Nat) {x : String} (hx : x ∈ ids pre ∨ x = e.id) :
    seenFirst G pre members t.round b x = seenFirst G (pre ++ [e]) members (t.assign e r).round b x := by
  rw [seenFirst_append hG hsplit b hx]
  exact seenFirst_congr (assign_agrees hG hsplit t r) b x

include h in
theorem ListInv.assign_flags (r : Nat) : ∀ e' ∈ pre ++ [e],
    Dict.get (t.assign e r).witnessFlags e'.id = some (decide (firstAt (pre ++ [e])
      (t.assign e r).round ((t.assign e r).round e'.id) e'.author = some e'.id)) := by
  intro e' he'
  rw [List.mem_append, List.mem_singleton] at he'
  show Dict.get (Dict.set t.witnessFlags e.id _) e'.id = _
  rw [firstAt_assign hG hsplit]
  rcases he' with he' | rfl
  · -- the slot of an old event was filled, by it or before
    have hx : e'.id ∈ ids pre := List.mem_map_of_mem he'
    obtain ⟨w, hw⟩ := exists_firstAt ⟨e', he', rfl, rfl⟩ t.round
    rw [Dict.get_set_ne _ _ (ne_of_mem_before hG hsplit hx), h.flags e' he',
      ← assign_round_before hG hsplit hx, hw]
    rfl
  · have hself : (t.assign e' r).round e'.id = r := by simp
    rw [Dict.get_set_self, hself, if_pos ⟨rfl, rfl⟩]
    congr 1
    rw [decide_eq_decide, ← Dict.get_eq_none, h.wits]
    cases hf : firstAt pre t.round r e'.author with
    | none => simp
    | some w =>
      have hw := ne_of_mem_before hG hsplit (firstAt_some hf).1.mem
      simp [hw.symm]

include h in
theorem ListInv.assign {r : Nat}
    (hr : r = if supermajorityThreshold members.length ≤
      (seenFirst G pre members t.round (t.baseRound e) e.id).card
      then t.baseRound e + 1 else t.baseRound e) :
    ListInv G members (pre ++ [e]) (t.assign e r) := by
  have hself : (t.assign e r).round e.id = r := by simp
  have hmem : ∀ x, x ∈ ids (pre ++ [e]) ↔ x ∈ ids pre ∨ x = e.id := by
    intro x; rw [ids_append, List.mem_append]; simp
  have hbefore : ∀ {x}, x ∈ ids pre → t.round x = (t.assign e r).round x :=
    fun hx => assign_round_before hG hsplit hx r
  have hparents : ∀ {x}, (x ∈ ids pre ∨ x = e.id) → ∀ p, Par G x p → p ∈ ids G →
      t.round p = (t.assign e r).round p :=
    fun hx p hp hpG => hbefore (mem_before_of_par hG hsplit hx hp hpG)
  refine ⟨?_, ?_, ?_, h.assign_flags hG hsplit r, ?_, ?_, ?_⟩
  · intro x
    rw [hmem, ← h.dom]
    show x ∈ Dict.keys (Dict.set t.rounds e.id r) ↔ _
    rw [Dict.mem_keys_set, or_comm]
  · intro x hx
    have hx' := (hmem x).1 hx
    rcases hx' with hpre | rfl
    · exact (h.rounds x hpre).congr (hbefore hpre) (hparents (.inl hpre)) fun b =>
        seenFirst_assign hG hsplit r b (.inl hpre)
    · refine ⟨t.baseRound e, (h.isBase hG hsplit).congr (hparents (.inr rfl)), ?_⟩
      rw [seenFirst_assign hG hsplit r (t.baseRound e) (.inr rfl)] at hr
      exact hself.trans hr
  · intro r' c
    rw [assign_get, h.wits, firstAt_assign hG hsplit]
  · intro r'
    rw [assign_witnesses]
    split
    · split
      · exact Dict.nodup_set (h.nodup r) _ _
      · exact h.nodup r
    · exact h.nodup r'
  · exact Dict.nodup_set h.roundsNodup _ _
  · intro r'
    show r' ∈ Dict.keys (Dict.set t.witnessesByRound r _) ↔ _
    rw [Dict.mem_keys_set, h.filled]
    constructor
    · rintro (rfl | ⟨x, hx, rfl⟩)
      · exact ⟨e.id, (hmem _).2 (.inr rfl), hself⟩
      · exact ⟨x, (hmem x).2 (.inl hx), (hbefore hx).symm⟩
    · rintro ⟨x, hx, rfl⟩
      rcases (hmem x).1 hx with hx | rfl
      · exact .inr ⟨x, hx, hbefore hx⟩
      · exact .inl hself

end Step

/-! ## The loop -/

theorem threshold_pos (n : Nat) : 1 ≤ supermajorityThreshold n := Nat.le_max_left _ _

open Classical in
/-- The creator of the witness, if `x` sees it. -/
noncomputable def seenCreator (G : List Event) (x w : String) : Option String :=
  match Dict.get (indexById G) w with
  | none => none
  | some e => if Sees G x w then some e.author else none

theorem seenCreator_eq_some (hG : ParentsFirst G) {x w c : String} :
    seenCreator G x w = some c ↔ Auth G w c ∧ Sees G x w := by
  unfold seenCreator
  cases hg : Dict.get (indexById G) w with
  | none =>
    have hw := (get_indexById_none hG.nodup).1 hg
    simp only [reduceCtorEq, false_iff]
    exact fun h => hw h.1.mem
  | some e =>
    obtain ⟨he, rfl⟩ := (get_indexById hG.nodup).1 hg
    simp only [Option.ite_none_right_eq_some, Option.some_inj]
    constructor
    · rintro ⟨hs, rfl⟩; exact ⟨⟨e, he, rfl, rfl⟩, hs⟩
    · rintro ⟨ha, hs⟩; exact ⟨hs, Auth.unique hG.nodup ⟨e, he, rfl, rfl⟩ ha⟩

open Classical in
/-- `_sees_supermajority` counts the members whose listed event is seen. -/
theorem seesSupermajority_computes (hG : ParentsFirst G) (x : String) (ws : List String) :
    Computes (CacheOk G) (seesSupermajority (passCtx G members) x ws)
      (decide (supermajorityThreshold members.length ≤
        (members.toFinset.filter fun c => ∃ w ∈ ws, Auth G w c ∧ Sees G x w).card)) := by
  unfold seesSupermajority
  refine Computes.bind (Computes.collectM (g := seenCreator G x) ?_) (Yields.pure ?_)
  · intro w _
    have hbyId : (passCtx G members).byId = indexById G := rfl
    unfold seenCreator
    rw [hbyId]
    cases Dict.get (indexById G) w with
    | none => exact Computes.pure _
    | some e => exact (canSee_computes hG x w).bind (Yields.pure (by simp))
  · have hcard : commonCount (ws.filterMap (seenCreator G x)) members =
        (members.toFinset.filter fun c => ∃ w ∈ ws, Auth G w c ∧ Sees G x w).card := by
      unfold commonCount
      congr 1
      ext c
      rw [Finset.mem_inter, List.mem_toFinset, List.mem_filterMap, Finset.mem_filter, and_comm]
      simp only [seenCreator_eq_some hG]
    show decide (_ ≤ commonCount _ members) = _
    rw [hcard]
    rfl

theorem auth_mono {x c : String} (h : Auth pre x c) : Auth (pre ++ post) x c := by
  obtain ⟨e, he, hx, hc⟩ := h
  exact ⟨e, List.mem_append_left _ he, hx, hc⟩

section Loop

/-- The witnesses a step asks about are those of its base round. -/
theorem ListInv.seen_iff (h : ListInv G members pre t) (hG : ParentsFirst G)
    (hsplit : G = pre ++ e :: post) (b : Nat) (c : String) :
    (∃ w ∈ Dict.values (t.witnesses b), Auth G w c ∧ Sees G e.id w) ↔
      ∃ w, firstAt pre t.round b c = some w ∧ Anc G e.id w := by
  have hauth : ∀ {c w}, firstAt pre t.round b c = some w → Auth G w c := by
    intro c w hw
    rw [hsplit]
    exact auth_mono (firstAt_some hw).1
  constructor
  · rintro ⟨w, hw, ha, hs⟩
    obtain ⟨c', hc'⟩ := (Dict.mem_values (h.nodup b)).1 hw
    rw [h.wits] at hc'
    obtain rfl := ha.unique hG.nodup (hauth hc')
    rcases sees_iff.1 hs with rfl | hs
    · exact absurd rfl (ne_of_mem_before hG hsplit (firstAt_some hc').1.mem)
    · exact ⟨w, hc', hs⟩
  · rintro ⟨w, hw, hs⟩
    refine ⟨w, (Dict.mem_values (h.nodup b)).2 ⟨c, ?_⟩, hauth hw, hs.to_reflTransGen⟩
    rw [h.wits, hw]

theorem roundStep_yields (h : ListInv G members pre t) (hG : ParentsFirst G)
    (hsplit : G = pre ++ e :: post) :
    Yields (CacheOk G) (roundStep (passCtx G members) t e) (ListInv G members (pre ++ [e])) := by
  classical
  have hcount : (members.toFinset.filter fun c =>
      ∃ w ∈ Dict.values (t.witnesses (t.baseRound e)), Auth G w c ∧ Sees G e.id w) =
      seenFirst G pre members t.round (t.baseRound e) e.id := by
    ext c
    rw [Finset.mem_filter, mem_seenFirst, List.mem_toFinset, h.seen_iff hG hsplit]
  have hdone : ∀ b : Bool, b = decide (supermajorityThreshold members.length ≤
      (seenFirst G pre members t.round (t.baseRound e) e.id).card) →
      Yields (CacheOk G) (pure (t.assign e (if b then t.baseRound e + 1 else t.baseRound e)))
        (ListInv G members (pre ++ [e])) := by
    rintro _ rfl
    exact Yields.pure (h.assign hG hsplit (by simp))
  unfold roundStep
  dsimp only
  split
  · rename_i hnil
    -- no witness in the base round: the count is zero, below every threshold
    refine Yields.bind (Computes.pure false) fun b hb => hdone b ?_
    rw [hb, ← hcount, hnil]
    have hpos := threshold_pos members.length
    simp only [List.not_mem_nil, false_and, exists_false, Finset.filter_false, Finset.card_empty]
    symm
    rw [decide_eq_false_iff_not]
    omega
  · refine Yields.bind (seesSupermajority_computes hG _ _) fun b hb => hdone b ?_
    rw [hb, hcount]

/-- **The round loop.** On a list with the parents first the loop ends with
the first events of the authors as witnesses. -/
theorem listing_yields (members : List String) (hG : ParentsFirst G) :
    Yields (CacheOk G) (loopM (roundStep (passCtx G members)) {} G) (ListInv G members G) :=
  Yields.loopM (ListInv G members) (fun _ _ _ hsplit _ h => roundStep_yields h hG hsplit) listInv_nil

end Loop

/-! ## Rounds grow along ancestry, over full layers -/

theorem mem_of_par {x p : String} (h : Par G x p) : x ∈ ids G := by
  obtain ⟨e, he, rfl, -⟩ := h
  exact List.mem_map_of_mem he

theorem mem_of_anc {x y : String} (h : Anc G x y) : x ∈ ids G := by
  obtain ⟨p, hp, -⟩ := TransGen.head'_iff.1 h
  exact mem_of_par hp

section Solution
variable (seen : Nat → String → Finset String) (hR : ∀ x ∈ ids G, RoundBy G members R (seen · x) x)
include hR

theorem RoundBy.par_le {x p : String} (hp : Par G x p) (hpG : p ∈ ids G) : R p ≤ R x := by
  obtain ⟨b, hb, hx⟩ := hR x (mem_of_par hp)
  have hle := hb.ge p hp hpG
  split at hx <;> omega

theorem RoundBy.mono {x y : String} (h : Sees G x y) (hy : y ∈ ids G) : R y ≤ R x := by
  induction h using ReflTransGen.head_induction_on with
  | refl => exact le_rfl
  | head hstep hrest ih =>
    rcases sees_iff.1 hrest with rfl | hanc
    · exact RoundBy.par_le seen hR hstep hy
    · exact ih.trans (RoundBy.par_le seen hR hstep (mem_of_anc hanc))

/-- An event above round `k` descends from a supermajority of its witnesses,
if what an ancestor sees is seen. -/
theorem RoundBy.support (hG : ParentsFirst G)
    (hmono : ∀ {k x y}, Anc G x y → seen k y ⊆ seen k x) {k : Nat} {x : String} (hx : x ∈ ids G)
    (hk : k < R x) : supermajorityThreshold members.length ≤ (seen k x).card := by
  suffices H : ∀ n x, (ids G).idxOf x = n → x ∈ ids G → k < R x →
      supermajorityThreshold members.length ≤ (seen k x).card by
    exact H _ x rfl hx hk
  intro n
  induction n using Nat.strong_induction_on with
  | _ n ih =>
    intro x hn hx hk
    obtain ⟨b, hb, hr⟩ := hR x hx
    by_cases hkb : k < b
    · -- a parent is in round `b` already
      rcases hb.attained with rfl | ⟨p, hp, hpG, rfl⟩
      · omega
      · have hanc : Anc G x p := TransGen.single hp
        exact (ih _ (hn ▸ hG.anc_idxOf_lt hanc hpG) p rfl hpG hkb).trans
          (Finset.card_le_card (hmono hanc))
    · split at hr
      · rename_i ht
        obtain rfl : k = b := by omega
        exact ht
      · omega

end Solution

/-- What an ancestor descends from, so does the event. -/
theorem seenFirst_mono {k : Nat} {x y : String} (h : Anc G x y) :
    seenFirst G pre members R k y ⊆ seenFirst G pre members R k x := by
  intro c hc
  obtain ⟨hm, w, hw, hyw⟩ := mem_seenFirst.1 hc
  exact mem_seenFirst.2 ⟨hm, w, hw, h.trans hyw⟩

theorem ListInv.support (h : ListInv G members G t) (hG : ParentsFirst G) {k : Nat} {x : String}
    (hx : x ∈ ids G) (hk : k < t.round x) :
    supermajorityThreshold members.length ≤ (seenFirst G G members t.round k x).card :=
  RoundBy.support _ h.rounds hG seenFirst_mono hx hk

theorem ListInv.exists_round_below (h : ListInv G members G t) (hG : ParentsFirst G) {k : Nat}
    {x : String} (hx : x ∈ ids G) (hk : k ≤ t.round x) : ∃ y ∈ ids G, t.round y = k := by
  rcases Nat.eq_or_lt_of_le hk with rfl | hk
  · exact ⟨x, hx, rfl⟩
  · obtain ⟨c, hc⟩ := Finset.card_pos.1 ((threshold_pos members.length).trans (h.support hG hx hk))
    obtain ⟨-, w, hw, -⟩ := mem_seenFirst.1 hc
    exact ⟨w, (firstAt_some hw).1.mem, (firstAt_some hw).2⟩

/-! ## The rounds in use -/

theorem sortedNats_perm (ks : List Nat) : (sortedNats ks).Perm ks := List.perm_insertionSort _ _

theorem sortedNats_eq_range {ks : List Nat} (hn : ks.Nodup) (hdown : ∀ k ∈ ks, ∀ j ≤ k, j ∈ ks) :
    sortedNats ks = List.range ks.length := by
  have hcard : ks.toFinset.card = ks.length := List.toFinset_card_of_nodup hn
  have hsub : ks.toFinset ⊆ Finset.range ks.length := by
    intro k hk
    rw [List.mem_toFinset] at hk
    have hle : Finset.range (k + 1) ⊆ ks.toFinset := by
      intro j hj
      rw [Finset.mem_range] at hj
      exact List.mem_toFinset.2 (hdown k hk j (by omega))
    have := Finset.card_le_card hle
    rw [Finset.card_range, hcard] at this
    exact Finset.mem_range.2 this
  have heq : ks.toFinset = Finset.range ks.length :=
    Finset.eq_of_subset_of_card_le hsub (by rw [hcard, Finset.card_range])
  have hperm : (sortedNats ks).Perm (List.range ks.length) := by
    refine (sortedNats_perm ks).trans ((List.perm_ext_iff_of_nodup hn List.nodup_range).2 ?_)
    intro k
    rw [← List.mem_toFinset, heq, Finset.mem_range, List.mem_range]
  exact hperm.eq_of_pairwise (fun _ _ _ _ h h' => Nat.le_antisymm h h')
    (List.pairwise_insertionSort (· ≤ ·) ks) List.pairwise_le_range

/-- The number of rounds in use. -/
def RoundTable.count (t : RoundTable) : Nat := t.witnessesByRound.length

/-- The rounds in use are the first ones, and a round has one witness of an
author. -/
structure RoundTable.Stacked (t : RoundTable) : Prop where
  ordered : sortedNats (Dict.keys t.witnessesByRound) = List.range t.count
  nodup : ∀ r, (Dict.keys (t.witnesses r)).Nodup

theorem RoundTable.Stacked.mem_keys (h : t.Stacked) {r : Nat} :
    r ∈ Dict.keys t.witnessesByRound ↔ r < t.count := by
  rw [← (sortedNats_perm _).mem_iff, h.ordered, List.mem_range]

/-- No round below that of an event is without events. -/
theorem RoundTable.stacked_of_filled (hrounds : (Dict.keys t.witnessesByRound).Nodup)
    (hnodup : ∀ r, (Dict.keys (t.witnesses r)).Nodup)
    (hfilled : ∀ r, r ∈ Dict.keys t.witnessesByRound ↔ ∃ x ∈ ids G, t.round x = r)
    (hbelow : ∀ {k : Nat} {x : String}, x ∈ ids G → k ≤ t.round x → ∃ y ∈ ids G, t.round y = k) :
    t.Stacked where
  nodup := hnodup
  ordered := by
    rw [sortedNats_eq_range hrounds]
    · simp [RoundTable.count, Dict.keys]
    · intro k hk j hj
      obtain ⟨x, hx, rfl⟩ := (hfilled k).1 hk
      exact (hfilled j).2 (hbelow hx hj)

theorem ListInv.stacked (h : ListInv G members G t) (hG : ParentsFirst G) : t.Stacked :=
  RoundTable.stacked_of_filled h.roundsNodup h.nodup h.filled (h.exists_round_below hG)

end Mdrj.L2
