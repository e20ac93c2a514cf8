import Mathlib.Order.Bounds.Basic

/-!
# Comparing and joining key by key

Maps to a linear order are compared by a loop over a list of keys that holds
every key they differ at, with one flag for each side. The order of the keys
makes no difference: the flags are two existence statements (`foldl_flags`),
and say which side is nowhere below the other (`any_lt_iff`).

A join that gives a least upper bound of two elements gives one of a list
(`isLUB_foldl_join`), and the result depends on the members of the list only
(`foldl_join_le`). The order need not be antisymmetric. Nothing here names a
particular map.
-/
namespace Mdrj.Core

section Flags
variable {κ α : Type}

/-- A loop with a flag for each of two cases that exclude each other. -/
theorem foldl_flags {p q : κ → Prop} [DecidablePred p] [DecidablePred q] (hexcl : ∀ key, p key → ¬ q key)
    (keys : List κ) : ∀ found : Bool × Bool,
      keys.foldl (fun found key =>
        if p key then (found.1, true) else if q key then (true, found.2) else found) found =
      (found.1 || keys.any (q ·), found.2 || keys.any (p ·)) := by
  induction keys with
  | nil => intro found; simp
  | cons key keys ih =>
    intro found
    rw [List.foldl_cons, List.any_cons, List.any_cons, ih]
    by_cases hp : p key
    · simp [hp, hexcl key hp]
    · by_cases hq : q key
      · simp [hp, hq]
      · simp [hp, hq]

theorem any_lt_iff [LinearOrder α] {f g : κ → α} {keys : List κ} (hoff : ∀ key, key ∉ keys → f key = g key) :
    (keys.any fun key => f key < g key) = true ↔ ¬ g ≤ f := by
  rw [List.any_eq_true, Pi.le_def, not_forall]
  constructor
  · rintro ⟨key, -, hlt⟩
    exact ⟨key, not_le.2 (of_decide_eq_true hlt)⟩
  · rintro ⟨key, hlt⟩
    have hkey : key ∈ keys := by
      by_contra hno
      exact hlt (hoff key hno).ge
    exact ⟨key, hkey, decide_eq_true (not_le.1 hlt)⟩

end Flags

section Joins
variable {α : Type} [Preorder α] {join : α → α → α}

theorem upperBounds_join (hjoin : ∀ a b, IsLUB {a, b} (join a b)) (a b : α) (s : Set α) :
    upperBounds (insert (join a b) s) = upperBounds (insert a (insert b s)) := by
  rw [upperBounds_insert, ← (hjoin a b).upperBounds_eq, ← upperBounds_union, Set.insert_union,
    Set.singleton_union]

/-- Joining one after another. -/
theorem isLUB_foldl_join (hjoin : ∀ a b, IsLUB {a, b} (join a b)) (l : List α) :
    ∀ a, IsLUB (insert a {b | b ∈ l}) (l.foldl join a) := by
  induction l with
  | nil =>
    intro a
    have hset : insert a {b | b ∈ ([] : List α)} = {a} := by simp
    rw [hset]
    exact isLUB_singleton
  | cons b l ih =>
    intro a
    have hset : insert a {c | c ∈ b :: l} = insert a (insert b {c | c ∈ l}) := by
      ext c
      simp
    rw [hset, List.foldl_cons, isLUB_congr (upperBounds_join hjoin a b _).symm]
    exact ih (join a b)

theorem foldl_join_le (hjoin : ∀ a b, IsLUB {a, b} (join a b)) {l l' : List α} (hsub : ∀ b ∈ l, b ∈ l')
    (a : α) : l.foldl join a ≤ l'.foldl join a := by
  have hl := isLUB_foldl_join hjoin l a
  have hl' := isLUB_foldl_join hjoin l' a
  exact hl.mono hl' (Set.insert_subset_insert hsub)

end Joins
end Mdrj.Core
