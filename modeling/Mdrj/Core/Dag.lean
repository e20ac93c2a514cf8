import Mathlib.Data.Fintype.Card
import Mathlib.Data.Set.Finite.List
import Mathlib.Logic.Relation
import Mathlib.Order.WellFounded

/-!
# Ancestry in a growing graph

`par x p` reads "`p` is a parent of `x`". When a graph grows to `par'`
without giving new parents to the vertices `V` it already had, and `V` holds
every parent that has parents of its own, ancestry from a vertex of `V` is
the same before and after. A finite graph without cycles has a vertex
without parents in it (`exists_minimal`), along an edge fewer of its vertices
are in reach (`reached_lt`), and a vertex added to it closes a cycle only if
one of its parents descends from it (`acyclic_insert`). Nothing here names a
particular graph.
-/
namespace Mdrj.Core
open Relation

variable {ι : Type} {par par' : ι → ι → Prop} {V : ι → Prop}

/-- `V` is closed under parents, up to parents that are leaves on both
sides. -/
structure Grows (par par' : ι → ι → Prop) (V : ι → Prop) : Prop where
  same : ∀ {x}, V x → ∀ p, par x p ↔ par' x p
  closed : ∀ {x p}, V x → par' x p → V p ∨ ∀ q, ¬ par' p q
  leaf : ∀ {x}, ¬ V x → ∀ p, ¬ par x p

theorem Grows.sub (h : Grows par par' V) {x p : ι} (hp : par x p) : par' x p := by
  by_cases hx : V x
  · exact (h.same hx p).1 hp
  · exact absurd hp (h.leaf hx p)

theorem Grows.transGen_iff (h : Grows par par' V) {x y : ι} (hx : V x) :
    TransGen par x y ↔ TransGen par' x y := by
  constructor
  · exact TransGen.mono (fun _ _ hp => h.sub hp) x y
  · intro hxy
    induction hxy using TransGen.head_induction_on with
    | single hstep => exact TransGen.single ((h.same hx _).2 hstep)
    | head hstep hrest ih =>
      refine TransGen.head ((h.same hx _).2 hstep) ?_
      rcases h.closed hx hstep with hv | hleaf
      · exact ih hv
      · obtain ⟨q, hq, -⟩ := (TransGen.head'_iff).1 hrest
        exact absurd hq (hleaf q)

theorem Grows.reflTransGen_iff (h : Grows par par' V) {x y : ι} (hx : V x) :
    ReflTransGen par x y ↔ ReflTransGen par' x y := by
  rw [reflTransGen_iff_eq_or_transGen, reflTransGen_iff_eq_or_transGen, h.transGen_iff hx]

/-- In a finite set, a relation without cycles has a minimal element. -/
theorem exists_minimal {r : ι → ι → Prop} (hr : ∀ x, ¬ TransGen r x x) {xs : List ι} {x : ι}
    (hx : x ∈ xs) : ∃ c ∈ xs, ∀ p ∈ xs, ¬ r p c := by
  let s : {x // x ∈ xs} → {x // x ∈ xs} → Prop := fun a b => TransGen r a.1 b.1
  have : IsTrans _ s := ⟨fun _ _ _ h h' => TransGen.trans h h'⟩
  have : Std.Irrefl s := ⟨fun a => hr a.1⟩
  have : Finite {x // x ∈ xs} := (List.finite_toSet xs).to_subtype
  obtain ⟨c, -, hmin⟩ := (Finite.wellFounded_of_trans_of_irrefl s).has_min Set.univ ⟨⟨x, hx⟩, trivial⟩
  exact ⟨c.1, c.2, fun p hp hpc => hmin ⟨p, hp⟩ trivial (TransGen.single hpc)⟩

section Reach
variable {r : ι → ι → Prop} {s : Finset ι}

/-- The vertices of `s` that `x` reaches. -/
noncomputable def reached (r : ι → ι → Prop) (s : Finset ι) (x : ι) : Finset ι :=
  open Classical in s.filter fun y => ReflTransGen r x y

/-- Without cycles, a parent reaches fewer vertices than its child. -/
theorem reached_lt (hr : ∀ x, ¬ TransGen r x x) {x p : ι} (hx : x ∈ s) (hp : r x p) :
    (reached r s p).card < (reached r s x).card := by
  classical
  refine Finset.card_lt_card (Finset.ssubset_iff_subset_ne.2 ⟨fun y hy => ?_, fun heq => ?_⟩)
  · obtain ⟨hy, hpy⟩ := Finset.mem_filter.1 hy
    exact Finset.mem_filter.2 ⟨hy, hpy.head hp⟩
  · have hself : x ∈ reached r s x := Finset.mem_filter.2 ⟨hx, .refl⟩
    rw [← heq] at hself
    have hback := (Finset.mem_filter.1 hself).2
    exact hr x (TransGen.head' hp hback)

theorem reached_le (x : ι) : (reached r s x).card ≤ s.card := by
  classical
  exact Finset.card_filter_le _ _

end Reach

section Insert
variable {r : ι → ι → Prop} {x : ι}

/-- From a vertex no parent of which descends from it, no path returns. -/
theorem transGen_from_insert (hx : ∀ p, r p x → p ≠ x ∧ ¬ TransGen (fun a b => r a b ∧ b ≠ x) x p)
    {y : ι} (h : TransGen r x y) : TransGen (fun a b => r a b ∧ b ≠ x) x y := by
  induction h with
  | single hy =>
    refine TransGen.single ⟨hy, fun he => ?_⟩
    subst he
    exact (hx _ hy).1 rfl
  | tail _ hc ih =>
    refine TransGen.tail ih ⟨hc, fun he => ?_⟩
    subst he
    exact (hx _ hc).2 ih

/-- A path between other vertices avoids `x` or passes through it. -/
theorem transGen_avoid {a b : ι} (h : TransGen r a b) (ha : a ≠ x) (hb : b ≠ x) :
    TransGen (fun a b => r a b ∧ a ≠ x ∧ b ≠ x) a b ∨ TransGen r a x ∧ TransGen r x b := by
  induction h with
  | single hab => exact .inl (TransGen.single ⟨hab, ha, hb⟩)
  | @tail b c hab hbc ih =>
    by_cases hbx : b = x
    · subst hbx
      exact .inr ⟨hab, TransGen.single hbc⟩
    · rcases ih hbx with h | ⟨h1, h2⟩
      · exact .inl (TransGen.tail h ⟨hbc, hbx, hb⟩)
      · exact .inr ⟨h1, TransGen.tail h2 hbc⟩

/-- A graph without cycles outside `x`, whose parents of `x` neither are `x`
nor descend from it, has no cycles. -/
theorem acyclic_insert (hr : ∀ y, ¬ TransGen (fun a b => r a b ∧ a ≠ x ∧ b ≠ x) y y)
    (hx : ∀ p, r p x → p ≠ x ∧ ¬ TransGen (fun a b => r a b ∧ b ≠ x) x p) (y : ι) :
    ¬ TransGen r y y := by
  have hxx : ¬ TransGen r x x := by
    intro h
    obtain ⟨_, -, hp⟩ := TransGen.tail'_iff.1 (transGen_from_insert hx h)
    exact hp.2 rfl
  intro h
  by_cases hyx : y = x
  · subst hyx; exact hxx h
  · rcases transGen_avoid h hyx hyx with h | ⟨h1, h2⟩
    · exact hr y h
    · exact hxx (h2.trans h1)

end Insert
end Mdrj.Core
