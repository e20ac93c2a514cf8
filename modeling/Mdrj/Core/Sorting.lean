import Mathlib.Data.List.Sort
import Mathlib.Data.List.Nodup
import Mathlib.Order.Bounds.Basic

/-!
# Sorting by a comparison that is an order only where it is used

A comparison of sort keys may fail to be an order on all keys (a NaN among
them) and still be one on the keys of a given list. The facts here ask for
totality and transitivity on the members of the list only.

* `pairwise_insertionSort_of`: the result is sorted.
* `find?_insertionSort`: the first match in the sorted list is the best match,
  and the earliest of equally good ones.
* `pairwise_insertionSort_coarse`: what the comparison respects, the result
  is sorted by.
* `rel_of_idxOf_lt`: places in a sorted list are related.
* `insertionSort_index`: sorting a list by the positions its elements have
  in a rearrangement yields the rearrangement.
* `filter_insertionSort_of`: sorting leaves a part that is in order as it is.
* `filter_prefix`: a smaller initial part is a prefix of a larger one.
* `map_eq_map`: two lists with one image have every image that it
  determines in common.
* `find?_isLeast`, `getLast?_isGreatest`: in a sorted list the first match is
  the least one, and the last element the greatest.
-/
namespace Mdrj.Core

variable {α β γ : Type}

theorem pairwise_insertionSort_of {r : α → α → Prop} [DecidableRel r] {l : List α}
    (htotal : ∀ a ∈ l, ∀ b ∈ l, r a b ∨ r b a)
    (htrans : ∀ a ∈ l, ∀ b ∈ l, ∀ c ∈ l, r a b → r b c → r a c) :
    (l.insertionSort r).Pairwise r := by
  -- sort the members as a subtype, on which the comparison is an order
  let s : {a // a ∈ l} → {a // a ∈ l} → Prop := fun a b => r a.1 b.1
  have : Std.Total s := ⟨fun a b => htotal a.1 a.2 b.1 b.2⟩
  have : IsTrans _ s := ⟨fun a b c => htrans a.1 a.2 b.1 b.2 c.1 c.2⟩
  have hmap : (l.attach.insertionSort s).map Subtype.val = l.insertionSort r := by
    rw [List.map_insertionSort s r Subtype.val l.attach fun a _ b _ => Iff.rfl,
      List.attach_map_subtype_val]
  rw [← hmap, List.pairwise_map]
  exact List.pairwise_insertionSort s l.attach

theorem find?_orderedInsert {r : α → α → Prop} [DecidableRel r] (p : α → Bool) {a : α} {l : List α}
    (hl : l.Pairwise r) (htrans : ∀ b ∈ l, ∀ c ∈ l, r a b → r b c → r a c) :
    (l.orderedInsert r a).find? p = if p a then
      (match l.find? p with
        | none => some a
        | some b => if r a b then some a else some b)
      else l.find? p := by
  induction l with
  | nil => cases hp : p a <;> simp [hp]
  | cons b l ih =>
    rw [List.pairwise_cons] at hl
    have ih' := ih hl.2 fun c hc d hd =>
      htrans c (List.mem_cons_of_mem b hc) d (List.mem_cons_of_mem b hd)
    rw [List.orderedInsert_cons]
    by_cases hab : r a b
    · rw [if_pos hab, List.find?_cons]
      cases hp : p a with
      | false => rfl
      | true =>
        simp only [if_true]
        cases hfind : (b :: l).find? p with
        | none => rfl
        | some c =>
          -- `a` stands before `b`, and so before every match
          have hac : r a c := by
            rcases List.mem_cons.1 (List.mem_of_find?_eq_some hfind) with rfl | hc
            · exact hab
            · exact htrans b List.mem_cons_self c (List.mem_cons_of_mem b hc) hab (hl.1 c hc)
          simp [hac]
    · rw [if_neg hab, List.find?_cons, List.find?_cons, ih']
      cases hpb : p b <;> simp [hab]

/-- A match that no earlier one equals and no other one beats. -/
def FirstBest (r : α → α → Prop) (p : α → Bool) (l : List α) (x : α) : Prop :=
  ∃ pre post, l = pre ++ x :: post ∧ p x = true ∧
    (∀ y ∈ pre, p y = true → ¬ r y x) ∧ ∀ y ∈ post, p y = true → r x y

section FirstBest
variable {r : α → α → Prop} {p : α → Bool} {l : List α} {a x : α}

theorem firstBest_cons : FirstBest r p (a :: l) x ↔
    (x = a ∧ p a = true ∧ ∀ y ∈ l, p y = true → r a y) ∨
      (p a = true → ¬ r a x) ∧ FirstBest r p l x := by
  constructor
  · intro h
    obtain ⟨pre, post, hl, hpx, hpre, hpost⟩ := h
    cases pre with
    | nil =>
      obtain ⟨rfl, rfl⟩ := List.cons.inj hl
      exact .inl ⟨rfl, hpx, hpost⟩
    | cons b pre =>
      obtain ⟨rfl, hrest⟩ := List.cons.inj hl
      rw [List.forall_mem_cons] at hpre
      exact .inr ⟨hpre.1, pre, post, hrest, hpx, hpre.2, hpost⟩
  · intro h
    rcases h with ⟨rfl, hpx, hpost⟩ | ⟨ha, pre, post, hl, hpx, hpre, hpost⟩
    · exact ⟨[], l, rfl, hpx, List.forall_mem_nil _, hpost⟩
    · exact ⟨a :: pre, post, by rw [hl]; rfl, hpx, List.forall_mem_cons.2 ⟨ha, hpre⟩, hpost⟩

theorem FirstBest.mem (h : FirstBest r p l x) : x ∈ l := by
  obtain ⟨pre, post, rfl, -⟩ := h
  exact List.mem_append_right pre List.mem_cons_self

theorem FirstBest.rel (h : FirstBest r p l x) (htotal : ∀ a ∈ l, ∀ b ∈ l, r a b ∨ r b a) {y : α}
    (hy : y ∈ l) (hpy : p y = true) : r x y := by
  have hx := h.mem
  obtain ⟨pre, post, hl, -, hpre, hpost⟩ := h
  have hy' := hy
  rw [hl, List.mem_append, List.mem_cons] at hy'
  rcases hy' with hy' | rfl | hy'
  · exact (htotal y hy x hx).resolve_left (hpre y hy' hpy)
  · exact (htotal y hy y hy).elim id id
  · exact hpost y hy' hpy

/-- The first match in the sorted list. -/
theorem find?_insertionSort [DecidableRel r] (htotal : ∀ a ∈ l, ∀ b ∈ l, r a b ∨ r b a)
    (htrans : ∀ a ∈ l, ∀ b ∈ l, ∀ c ∈ l, r a b → r b c → r a c) :
    (l.insertionSort r).find? p = some x ↔ FirstBest r p l x := by
  induction l generalizing x with
  | nil => simp [FirstBest]
  | cons a l ih =>
    have htotal' : ∀ b ∈ l, ∀ c ∈ l, r b c ∨ r c b := fun b hb c hc =>
      htotal b (List.mem_cons_of_mem a hb) c (List.mem_cons_of_mem a hc)
    have htrans' : ∀ b ∈ l, ∀ c ∈ l, ∀ d ∈ l, r b c → r c d → r b d := fun b hb c hc d hd =>
      htrans b (List.mem_cons_of_mem a hb) c (List.mem_cons_of_mem a hc) d (List.mem_cons_of_mem a hd)
    have hmem : ∀ b, b ∈ l.insertionSort r ↔ b ∈ l := fun b => List.mem_insertionSort r
    have ih' := fun x => ih (x := x) htotal' htrans'
    rw [List.insertionSort_cons, firstBest_cons,
      find?_orderedInsert p (pairwise_insertionSort_of htotal' htrans')
        fun b hb c hc => htrans a List.mem_cons_self b (List.mem_cons_of_mem a ((hmem b).1 hb)) c
          (List.mem_cons_of_mem a ((hmem c).1 hc)), ← ih' x]
    cases hfind : (l.insertionSort r).find? p with
    | none =>
      have hbest : ∀ y ∈ l, p y = true → r a y := fun y hy hpy =>
        absurd hpy (List.find?_eq_none.1 hfind y ((hmem y).2 hy))
      by_cases hp : p a = true
      · rw [if_pos hp]
        refine ⟨fun h => .inl ⟨(Option.some.inj h).symm, hp, hbest⟩, fun h => ?_⟩
        rcases h with ⟨rfl, -⟩ | ⟨-, h⟩
        · rfl
        · cases h
      · simp [hp]
    | some b =>
      -- `a` is the best if it beats the best of the rest
      have hb := (ih' b).1 hfind
      have hbest : (∀ y ∈ l, p y = true → r a y) ↔ r a b := by
        constructor
        · intro h
          exact h b hb.mem (List.find?_some hfind)
        · intro hab y hy hpy
          exact htrans a List.mem_cons_self b (List.mem_cons_of_mem a hb.mem) y
            (List.mem_cons_of_mem a hy) hab (hb.rel htotal' hy hpy)
      rw [hbest]
      by_cases hp : p a = true
      · rw [if_pos hp]
        dsimp only
        by_cases hab : r a b
        · rw [if_pos hab]
          refine ⟨fun h => .inl ⟨(Option.some.inj h).symm, hp, hab⟩, fun h => ?_⟩
          rcases h with ⟨rfl, -⟩ | ⟨hnot, h⟩
          · rfl
          · exact absurd (Option.some.inj h ▸ hab) (hnot hp)
        · rw [if_neg hab]
          refine ⟨fun h => .inr ⟨fun _ => Option.some.inj h ▸ hab, h⟩, fun h => ?_⟩
          rcases h with ⟨-, -, hab'⟩ | ⟨-, h⟩
          · exact absurd hab' hab
          · exact h
      · simp [hp]

end FirstBest

/-- A comparison that never contradicts the preorder `s` sorts by it, however
it compares elements that `s` holds equal. -/
theorem pairwise_insertionSort_coarse {r s : α → α → Prop} [DecidableRel r]
    (hpos : ∀ a b, r a b → s a b) (hneg : ∀ a b, ¬ r a b → s b a)
    (htrans : ∀ a b c, s a b → s b c → s a c) (l : List α) : (l.insertionSort r).Pairwise s := by
  have hinsert : ∀ (a : α) (l : List α), l.Pairwise s → (l.orderedInsert r a).Pairwise s := by
    intro a l
    induction l with
    | nil => intro _; exact List.pairwise_singleton s a
    | cons b l ih =>
      intro hl
      obtain ⟨hb, hl'⟩ := List.pairwise_cons.1 hl
      rw [List.orderedInsert_cons]
      split
      · rename_i hab
        refine List.pairwise_cons.2 ⟨fun c hc => ?_, hl⟩
        rcases List.mem_cons.1 hc with rfl | hc
        · exact hpos _ _ hab
        · exact htrans _ _ _ (hpos _ _ hab) (hb c hc)
      · rename_i hab
        refine List.pairwise_cons.2 ⟨fun c hc => ?_, ih hl'⟩
        rcases (List.mem_orderedInsert r).1 hc with rfl | hc
        · exact hneg _ _ hab
        · exact hb c hc
  induction l with
  | nil => exact List.Pairwise.nil
  | cons a l ih => exact hinsert a _ ih

theorem idxOf_map_getElem [DecidableEq β] {f : α → β} {m : List α} (hn : (m.map f).Nodup) {k : Nat}
    (hk : k < m.length) : (m.map f).idxOf (f m[k]) = k := by
  have := hn.idxOf_getElem k (by simpa using hk)
  simpa using this

theorem rel_of_idxOf_lt [DecidableEq β] {f : α → β} {m : List α} {s : α → α → Prop}
    (hn : (m.map f).Nodup) (hs : m.Pairwise s) {a b : α} (ha : a ∈ m) (hb : b ∈ m)
    (hlt : (m.map f).idxOf (f a) < (m.map f).idxOf (f b)) : s a b := by
  obtain ⟨i, hi, rfl⟩ := List.getElem_of_mem ha
  obtain ⟨j, hj, rfl⟩ := List.getElem_of_mem hb
  rw [idxOf_map_getElem hn hi, idxOf_map_getElem hn hj] at hlt
  exact List.pairwise_iff_getElem.1 hs i j hi hj hlt

theorem idxOf_pairwise [DecidableEq β] {f : α → β} {m : List α} (hn : (m.map f).Nodup) :
    m.Pairwise fun a b => (m.map f).idxOf (f a) < (m.map f).idxOf (f b) := by
  rw [List.pairwise_iff_getElem]
  intro i j hi hj hij
  rw [idxOf_map_getElem hn hi, idxOf_map_getElem hn hj]
  exact hij

theorem insertionSort_index [DecidableEq β] {f : α → β} {l m : List α} (hperm : m.Perm l)
    (hn : (m.map f).Nodup) :
    l.insertionSort (fun a b => (m.map f).idxOf (f a) ≤ (m.map f).idxOf (f b)) = m := by
  have hsorted := pairwise_insertionSort_of
    (r := fun a b => (m.map f).idxOf (f a) ≤ (m.map f).idxOf (f b)) (l := l)
    (fun a _ b _ => Nat.le_total _ _) (fun a _ b _ c _ => Nat.le_trans)
  refine List.Perm.eq_of_pairwise ?_ hsorted ((idxOf_pairwise hn).imp fun h => Nat.le_of_lt h)
    ((List.perm_insertionSort _ l).trans hperm.symm)
  intro a b ha hb h1 h2
  have ha' : a ∈ m := hperm.mem_iff.2 ((List.mem_insertionSort _).1 ha)
  have hf : f a = f b := by
    have ha'' : f a ∈ m.map f := List.mem_map_of_mem ha'
    exact (List.idxOf_inj ha'').1 (Nat.le_antisymm h1 h2)
  exact List.inj_on_of_nodup_map hn ha' hb hf

/-- The sort is stable. -/
theorem filter_insertionSort_of {r : α → α → Prop} [DecidableRel r] {p : α → Bool} {l : List α}
    (h : (l.filter p).Pairwise r) : (l.insertionSort r).filter p = l.filter p := by
  have hsub : ((l.filter p).filter p).Sublist ((l.insertionSort r).filter p) :=
    (List.sublist_insertionSort h List.filter_sublist).filter p
  rw [List.filter_filter] at hsub
  simp only [Bool.and_self] at hsub
  have hlength := ((List.perm_insertionSort r l).filter p).length_eq
  exact (hsub.eq_of_length hlength.symm).symm

/-- Of a sorted list, the part below a bound is a prefix of the part below a
larger bound. -/
theorem filter_prefix {r : α → α → Prop} {p q : α → Bool} {l : List α} (hl : l.Pairwise r)
    (hpq : ∀ a ∈ l, p a = true → q a = true)
    (hdown : ∀ a ∈ l, ∀ b ∈ l, r a b → p b = true → p a = true) : l.filter p <+: l.filter q := by
  induction l with
  | nil => exact List.nil_prefix
  | cons a l ih =>
    rw [List.pairwise_cons] at hl
    have ih' := ih hl.2 (fun b hb => hpq b (List.mem_cons_of_mem _ hb))
      fun b hb c hc => hdown b (List.mem_cons_of_mem _ hb) c (List.mem_cons_of_mem _ hc)
    cases hp : p a with
    | true =>
      rw [List.filter_cons_of_pos hp, List.filter_cons_of_pos (hpq a List.mem_cons_self hp)]
      exact (List.prefix_cons_inj a).2 ih'
    | false =>
      -- nothing after `a` is below the bound either
      have hnil : (a :: l).filter p = [] := by
        rw [List.filter_eq_nil_iff]
        intro b hb hpb
        rcases List.mem_cons.1 hb with rfl | hb
        · rw [hp] at hpb; cases hpb
        · have := hdown a List.mem_cons_self b (List.mem_cons_of_mem _ hb) (hl.1 b hb) hpb
          rw [hp] at this; cases this
      rw [hnil]
      exact List.nil_prefix

/-- Of a list that ends in `y`, an element that is not before the end is the
end. -/
theorem eq_of_append_cons {l pre post : List α} {a y : α} (h : pre ++ a :: post = l ++ [y]) (ha : a ∉ l) :
    pre = l ∧ a = y := by
  rcases List.append_eq_append_iff.1 h with ⟨rest, hl, hrest⟩ | ⟨rest, hpre, hrest⟩
  · cases rest with
    | nil => exact ⟨by simpa using hl.symm, (List.cons.inj hrest).1⟩
    | cons b rest =>
      obtain rfl := (List.cons.inj hrest).1
      rw [hl] at ha
      exact absurd (List.mem_append_right pre List.mem_cons_self) ha
  · cases rest with
    | nil => exact ⟨by simpa using hpre, (List.cons.inj hrest).1.symm⟩
    | cons b rest =>
      have hlen := congrArg List.length (List.cons.inj hrest).2
      simp at hlen

theorem map_eq_map {l m : List α} {f : α → β} {g g' : α → γ} (h : l.map f = m.map f)
    (hg : ∀ a ∈ l, ∀ b ∈ m, f a = f b → g a = g' b) : l.map g = m.map g' := by
  induction l generalizing m with
  | nil =>
    cases m with
    | nil => rfl
    | cons b m => cases h
  | cons a l ih =>
    cases m with
    | nil => cases h
    | cons b m =>
      rw [List.map_cons, List.map_cons, List.cons.injEq] at h
      rw [List.map_cons, List.map_cons, hg a List.mem_cons_self b List.mem_cons_self h.1,
        ih h.2 fun a' ha' b' hb' =>
          hg a' (List.mem_cons_of_mem _ ha') b' (List.mem_cons_of_mem _ hb')]

/-! ## First and last -/

section Linear
variable [LinearOrder α] {l : List α} {p : α → Bool} {a : α}

theorem find?_isLeast (hl : l.Pairwise (· ≤ ·)) :
    l.find? p = some a ↔ IsLeast {x | x ∈ l ∧ p x = true} a := by
  induction l with
  | nil => simp [IsLeast]
  | cons b l ih =>
    obtain ⟨hb, hl⟩ := List.pairwise_cons.1 hl
    rw [List.find?_cons]
    cases hpb : p b with
    | true =>
      have hleast : IsLeast {x | x ∈ b :: l ∧ p x = true} b := by
        refine ⟨⟨List.mem_cons_self, hpb⟩, fun x hx => ?_⟩
        rcases List.mem_cons.1 hx.1 with rfl | hxl
        · exact le_rfl
        · exact hb x hxl
      dsimp only
      rw [Option.some.injEq]
      constructor
      · rintro rfl
        exact hleast
      · exact hleast.unique
    | false =>
      have hset : {x | x ∈ b :: l ∧ p x = true} = {x | x ∈ l ∧ p x = true} := by
        ext x
        refine and_congr_left fun hx => ?_
        have hne : x ≠ b := by
          rintro rfl
          rw [hpb] at hx
          cases hx
        rw [List.mem_cons, or_iff_right hne]
      rw [hset]
      exact ih hl

theorem getLast?_isGreatest (hl : l.Pairwise (· ≤ ·)) (h : l.getLast? = some a) : IsGreatest {x | x ∈ l} a := by
  obtain ⟨pre, rfl⟩ := List.getLast?_eq_some_iff.1 h
  obtain ⟨-, -, hlast⟩ := List.pairwise_append.1 hl
  refine ⟨List.mem_append_right pre (List.mem_singleton_self a), fun x hx => ?_⟩
  rcases List.mem_append.1 hx with hx | hx
  · exact hlast x hx a (List.mem_singleton_self a)
  · exact (List.mem_singleton.1 hx).le

end Linear

end Mdrj.Core
