import Mathlib.Data.List.Sort
import Mathlib.Data.Finset.Card
import Mdrj.Core.Dict

/-!
# Values in the middle

A value is central to a list when half of the entries are at most as large
and half at least as large. In a sorted list the middle entry is central, and
with two in the middle everything between them (`central_middle`,
`central_between`). A minority of the keys of a dictionary cannot pull a
central value out of the range of the others (`Central.exists_le`,
`Central.exists_ge`).
-/
namespace Mdrj.Core

variable {α κ : Type} [LinearOrder α]

structure Central (xs : List α) (v : α) : Prop where
  below : xs.length ≤ 2 * xs.countP (· ≤ v)
  above : xs.length ≤ 2 * xs.countP (v ≤ ·)

theorem Central.perm {xs ys : List α} {v : α} (h : Central xs v) (hp : xs.Perm ys) :
    Central ys v where
  below := by rw [← hp.length_eq, ← hp.countP_eq]; exact h.below
  above := by rw [← hp.length_eq, ← hp.countP_eq]; exact h.above

/-! ## Ranks -/

section Sorted
variable {l : List α} (hs : l.Pairwise (· ≤ ·))
include hs

theorem succ_le_countP {i : Nat} (hi : i < l.length) {v : α} (hv : l[i] ≤ v) :
    i + 1 ≤ l.countP (· ≤ v) := by
  have hall : (l.take (i + 1)).countP (· ≤ v) = (l.take (i + 1)).length := by
    rw [List.countP_eq_length]
    intro x hx
    obtain ⟨j, hj, rfl⟩ := List.mem_take_iff_getElem.1 hx
    rw [decide_eq_true_eq]
    rcases Nat.eq_or_lt_of_le (show j ≤ i by omega) with rfl | hlt
    · exact hv
    · exact (List.pairwise_iff_getElem.1 hs j i _ hi hlt).trans hv
  calc i + 1 = (l.take (i + 1)).length := by rw [List.length_take]; omega
    _ = (l.take (i + 1)).countP (· ≤ v) := hall.symm
    _ ≤ l.countP (· ≤ v) := (List.take_sublist _ _).countP_le

theorem length_sub_le_countP {i : Nat} (hi : i < l.length) {v : α} (hv : v ≤ l[i]) :
    l.length - i ≤ l.countP (v ≤ ·) := by
  have hall : (l.drop i).countP (v ≤ ·) = (l.drop i).length := by
    rw [List.countP_eq_length]
    intro x hx
    obtain ⟨j, hj, rfl⟩ := List.mem_drop_iff_getElem.1 hx
    rw [decide_eq_true_eq]
    rcases Nat.eq_zero_or_pos j with rfl | hpos
    · exact hv
    · exact hv.trans (List.pairwise_iff_getElem.1 hs i (i + j) hi (by omega) (by omega))
  calc l.length - i = (l.drop i).length := by rw [List.length_drop]
    _ = (l.drop i).countP (v ≤ ·) := hall.symm
    _ ≤ l.countP (v ≤ ·) := (List.drop_sublist _ _).countP_le

theorem central_middle (hodd : l.length % 2 = 1) (hi : l.length / 2 < l.length) :
    Central l l[l.length / 2] where
  below := by
    have := succ_le_countP hs hi le_rfl
    omega
  above := by
    have := length_sub_le_countP hs hi le_rfl
    omega

theorem central_between {v : α} (hlow : l.length / 2 - 1 < l.length) (hhigh : l.length / 2 < l.length)
    (heven : l.length % 2 = 0) (h1 : l[l.length / 2 - 1] ≤ v) (h2 : v ≤ l[l.length / 2]) :
    Central l v where
  below := by
    have := succ_le_countP hs hlow h1
    omega
  above := by
    have := length_sub_le_countP hs hhigh h2
    omega

end Sorted

/-! ## Minorities -/

section Minority
variable [DecidableEq κ] {d : Dict κ α} {F : Finset κ} {v : α}

omit [LinearOrder α] in
theorem exists_outside (hn : (Dict.keys d).Nodup) (hF : 2 * F.card < d.length) {P : α → Bool}
    (hP : d.length ≤ 2 * (Dict.values d).countP P) : ∃ k u, Dict.get d k = some u ∧ k ∉ F ∧ P u = true := by
  by_contra hno
  push Not at hno
  have hsub : (Dict.keys (d.filter fun p => P p.2)).toFinset ⊆ F := by
    intro k hk
    rw [List.mem_toFinset, Dict.keys, List.mem_map] at hk
    obtain ⟨⟨k, u⟩, hp, rfl⟩ := hk
    obtain ⟨hmem, hpu⟩ := List.mem_filter.1 hp
    by_contra hkF
    exact hno k u (Dict.get_of_mem hn hmem) hkF hpu
  have hcard : (Dict.values d).countP P ≤ F.card := by
    have hnodup : (Dict.keys (d.filter fun p => P p.2)).Nodup :=
      hn.sublist (List.filter_sublist.map _)
    have hcount : (Dict.values d).countP P = (Dict.keys (d.filter fun p => P p.2)).length := by
      unfold Dict.values Dict.keys
      rw [List.countP_map, List.countP_eq_length_filter, List.length_map]
      rfl
    rw [hcount, ← List.toFinset_card_of_nodup hnodup]
    exact Finset.card_le_card hsub
  omega

theorem Central.exists_le (h : Central (Dict.values d) v) (hn : (Dict.keys d).Nodup)
    (hF : 2 * F.card < d.length) : ∃ k u, Dict.get d k = some u ∧ k ∉ F ∧ u ≤ v := by
  have hbelow := h.below
  rw [Dict.values, List.length_map] at hbelow
  obtain ⟨k, u, hget, hk, hu⟩ := exists_outside hn hF hbelow
  exact ⟨k, u, hget, hk, of_decide_eq_true hu⟩

theorem Central.exists_ge (h : Central (Dict.values d) v) (hn : (Dict.keys d).Nodup)
    (hF : 2 * F.card < d.length) : ∃ k u, Dict.get d k = some u ∧ k ∉ F ∧ v ≤ u := by
  have habove := h.above
  rw [Dict.values, List.length_map] at habove
  obtain ⟨k, u, hget, hk, hu⟩ := exists_outside hn hF habove
  exact ⟨k, u, hget, hk, of_decide_eq_true hu⟩

end Minority
end Mdrj.Core
