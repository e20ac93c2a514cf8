import Mdrj.Core.ListOrder
import Mdrj.Core.Sorting
import Mdrj.L2Consensus.Engine

/-!
# The total order

`total_order` sorts by received round, timestamp and id. Away from NaN the
comparison of the keys is a strict total order (`OrderKey.lt_total`,
`OrderKey.lt_trans`), so the sorted list is strictly increasing in the key
of the event id (`totalOrder_pairwise`): it depends on the set of events and
their keys alone.
-/
namespace Mdrj.L2
open Mdrj.Core Mdrj.L1

/-- `<` on received rounds, a missing one last. -/
def rrLt : Option Int → Option Int → Prop
  | some x, some y => x < y
  | some _, none => True
  | none, _ => False

theorem rrLt_irrefl (a : Option Int) : ¬ rrLt a a := by
  cases a <;> simp [rrLt]

theorem rrLt_trans {a b c : Option Int} (h : rrLt a b) (h' : rrLt b c) : rrLt a c := by
  cases a <;> cases b <;> cases c <;> simp only [rrLt] at h h' ⊢
  exact h.trans h'

theorem rrLt_total {a b : Option Int} (h : a ≠ b) : rrLt a b ∨ rrLt b a := by
  cases a with
  | none =>
    cases b with
    | none => exact absurd rfl h
    | some y => exact .inr trivial
  | some x =>
    cases b with
    | none => exact .inl trivial
    | some y => exact Int.lt_or_gt_of_ne fun e => h (by rw [e])

/-- `≤` on received rounds: `b` does not come before `a`. -/
theorem rrLt_connected {a b c : Option Int} (h : ¬ rrLt b a) (h' : ¬ rrLt c b) : ¬ rrLt c a := by
  intro hca
  by_cases hab : a = b
  · exact h' (hab ▸ hca)
  · rcases rrLt_total hab with hlt | hlt
    · exact h' (rrLt_trans hca hlt)
    · exact h hlt

theorem id_lt_total {x y : String} (h : x ≠ y) : x < y ∨ y < x := by
  by_cases hxy : x < y
  · exact .inl hxy
  · refine .inr (String.not_le.1 fun hle => h ?_)
    exact String.le_antisymm hle (String.not_lt.1 hxy)

theorem OrderKey.lt_iff (a b : OrderKey) : OrderKey.lt a b = true ↔
    rrLt a.roundReceived b.roundReceived ∨ a.roundReceived = b.roundReceived ∧
      (Flt.lt a.consensusTs b.consensusTs = true ∨ a.consensusTs = b.consensusTs ∧
        (a.id < b.id ∨ a.id = b.id ∧ a.index < b.index)) := by
  unfold OrderKey.lt
  by_cases hr : a.roundReceived = b.roundReceived
  · by_cases ht : a.consensusTs = b.consensusTs
    · by_cases hi : a.id = b.id
      · simp [hr, ht, hi, rrLt_irrefl, Flt.lt_irrefl]
      · simp [hr, ht, hi, rrLt_irrefl, Flt.lt_irrefl]
    · simp [hr, ht, rrLt_irrefl]
  · simp only [ne_eq, hr, not_false_eq_true, if_true, false_and, or_false]
    cases a.roundReceived <;> cases b.roundReceived <;> simp [rrLt]

theorem OrderKey.lt_trans {a b c : OrderKey} (h : OrderKey.lt a b = true)
    (h' : OrderKey.lt b c = true) : OrderKey.lt a c = true := by
  rw [OrderKey.lt_iff] at h h' ⊢
  rcases h with h | ⟨hr, h⟩
  · rcases h' with h' | ⟨hr', -⟩
    · exact .inl (rrLt_trans h h')
    · exact .inl (hr' ▸ h)
  · rcases h' with h' | ⟨hr', h'⟩
    · exact .inl (hr ▸ h')
    · refine .inr ⟨hr.trans hr', ?_⟩
      rcases h with h | ⟨ht, h⟩
      · rcases h' with h' | ⟨ht', -⟩
        · exact .inl (Flt.lt_trans h h')
        · exact .inl (ht' ▸ h)
      · rcases h' with h' | ⟨ht', h'⟩
        · exact .inl (ht ▸ h')
        · refine .inr ⟨ht.trans ht', ?_⟩
          rcases h with h | ⟨hi, h⟩
          · rcases h' with h' | ⟨hi', -⟩
            · exact .inl (String.lt_trans h h')
            · exact .inl (hi' ▸ h)
          · rcases h' with h' | ⟨hi', h'⟩
            · exact .inl (hi ▸ h')
            · exact .inr ⟨hi.trans hi', h.trans h'⟩

theorem OrderKey.lt_irrefl (a : OrderKey) : OrderKey.lt a a = false := by
  rw [Bool.eq_false_iff, Ne, OrderKey.lt_iff]
  simp [rrLt_irrefl, Flt.lt_irrefl]

theorem OrderKey.lt_asymm {a b : OrderKey} (h : OrderKey.lt a b = true) :
    OrderKey.lt b a = false := by
  cases hba : OrderKey.lt b a
  · rfl
  · have := OrderKey.lt_trans h hba
    rw [OrderKey.lt_irrefl] at this; cases this

/-- Keys with different ids and no NaN are comparable. -/
theorem OrderKey.lt_total {a b : OrderKey} (ha : a.consensusTs ≠ .nan) (hb : b.consensusTs ≠ .nan)
    (hid : a.id ≠ b.id) : OrderKey.lt a b = true ∨ OrderKey.lt b a = true := by
  rw [OrderKey.lt_iff, OrderKey.lt_iff]
  by_cases hr : a.roundReceived = b.roundReceived
  · by_cases ht : a.consensusTs = b.consensusTs
    · rcases id_lt_total hid with h | h
      · exact .inl (.inr ⟨hr, .inr ⟨ht, .inl h⟩⟩)
      · exact .inr (.inr ⟨hr.symm, .inr ⟨ht.symm, .inl h⟩⟩)
    · rcases Flt.lt_total ha hb ht with h | h
      · exact .inl (.inr ⟨hr, .inl h⟩)
      · exact .inr (.inr ⟨hr.symm, .inl h⟩)
  · rcases rrLt_total hr with h | h
    · exact .inl (.inl h)
    · exact .inr (.inl h)

/-! ## The sorted list -/

/-- Received round and timestamp an id sorts by. -/
abbrev SortKeys := String → Option Int × Flt

def keyOf (K : SortKeys) (x : String) : OrderKey := ⟨(K x).1, (K x).2, x, 0⟩

/-- The index only separates equal ids. -/
theorem OrderKey.lt_keyOf {K : SortKeys} {x y : String} (hxy : x ≠ y) (i j : Nat) :
    OrderKey.lt ⟨(K x).1, (K x).2, x, i⟩ ⟨(K y).1, (K y).2, y, j⟩ =
      OrderKey.lt (keyOf K x) (keyOf K y) := by
  rw [Bool.eq_iff_iff, OrderKey.lt_iff, OrderKey.lt_iff]
  simp [keyOf, hxy]

section TotalOrder
variable {events : List Event} {resolved : Dict String (Option Int × Option Flt)} {K : SortKeys}

theorem totalOrder_perm (events : List Event) (resolved : Dict String (Option Int × Option Flt)) :
    (totalOrder events resolved).Perm events := by
  unfold totalOrder
  refine ((ListSort.sorted_perm _).map _).trans ?_
  rw [List.map_map]
  have : (Prod.snd ∘ fun p : Event × Nat => (orderKey resolved p.2 p.1, p.1)) = Prod.fst := rfl
  rw [this, List.zipIdx_map_fst]

/-- The events with their sort keys. -/
def decorated (events : List Event) (resolved : Dict String (Option Int × Option Flt)) :
    List (OrderKey × Event) := events.zipIdx.map fun p => (orderKey resolved p.2 p.1, p.1)

section Decorated
variable (hK : ∀ e ∈ events, ∀ i, orderKey resolved i e = ⟨(K e.id).1, (K e.id).2, e.id, i⟩)
  (hnan : ∀ e ∈ events, (K e.id).2 ≠ .nan)
include hK

/-- Every decorated entry is an event with the key of its id. -/
theorem mem_decorated {p : OrderKey × Event} (hp : p ∈ decorated events resolved) :
    p.2 ∈ events ∧ ∃ i, p.1 = ⟨(K p.2.id).1, (K p.2.id).2, p.2.id, i⟩ := by
  obtain ⟨q, hq, rfl⟩ := List.mem_map.1 hp
  have hmem : q.1 ∈ events := by
    have := List.mem_map_of_mem (f := Prod.fst) hq
    rwa [List.zipIdx_map_fst] at this
  exact ⟨hmem, q.2, hK q.1 hmem q.2⟩

include hnan

/-- Entries of different ids compare as the keys of the ids do. -/
theorem decorated_lt {p q : OrderKey × Event} (hp : p ∈ decorated events resolved)
    (hq : q ∈ decorated events resolved) (hne : p.2.id ≠ q.2.id) :
    OrderKey.lt p.1 q.1 = OrderKey.lt (keyOf K p.2.id) (keyOf K q.2.id) ∧
      (OrderKey.lt p.1 q.1 = true ∨ OrderKey.lt q.1 p.1 = true) := by
  obtain ⟨hpe, i, hi⟩ := mem_decorated hK hp
  obtain ⟨hqe, j, hj⟩ := mem_decorated hK hq
  refine ⟨by rw [hi, hj, OrderKey.lt_keyOf hne], ?_⟩
  rw [hi, hj]
  exact OrderKey.lt_total (hnan _ hpe) (hnan _ hqe) hne

theorem decorated_total {p q : OrderKey × Event} (hp : p ∈ decorated events resolved)
    (hq : q ∈ decorated events resolved) :
    OrderKey.lt p.1 q.1 = true ∨ p.1 = q.1 ∨ OrderKey.lt q.1 p.1 = true := by
  by_cases hne : p.2.id = q.2.id
  · -- the index separates entries of one id
    obtain ⟨-, i, hi⟩ := mem_decorated hK hp
    obtain ⟨-, j, hj⟩ := mem_decorated hK hq
    rw [hi, hj, ← hne]
    rcases Nat.lt_trichotomy i j with h | h | h
    · exact .inl ((OrderKey.lt_iff _ _).2 (.inr ⟨rfl, .inr ⟨rfl, .inr ⟨rfl, h⟩⟩⟩))
    · exact .inr (.inl (by rw [h]))
    · exact .inr (.inr ((OrderKey.lt_iff _ _).2 (.inr ⟨rfl, .inr ⟨rfl, .inr ⟨rfl, h⟩⟩⟩)))
  · rcases (decorated_lt hK hnan hp hq hne).2 with h | h
    · exact .inl h
    · exact .inr (.inr h)

theorem decorated_sorted : (ListSort.sorted (fun a b => OrderKey.lt a.1 b.1)
    (decorated events resolved)).Pairwise fun a b => OrderKey.lt b.1 a.1 = false := by
  refine ListSort.pairwise_sorted_of ?_ (fun a _ b _ h => OrderKey.lt_asymm h) (fun a _ b _ h => h)
  · intro a ha b hb c hc hab hbc
    cases hca : OrderKey.lt c.1 a.1
    · rfl
    · -- `c < a` and `a ≤ b` give `c < b`
      exfalso
      rcases decorated_total hK hnan ha hb with h | h | h
      · rw [OrderKey.lt_trans hca h] at hbc; cases hbc
      · rw [h] at hca; rw [hca] at hbc; cases hbc
      · rw [h] at hab; cases hab

end Decorated

/-- Without NaN the order is strictly increasing in the ids' keys. -/
theorem totalOrder_pairwise (hn : (events.map Event.id).Nodup)
    (hK : ∀ e ∈ events, ∀ i, orderKey resolved i e = ⟨(K e.id).1, (K e.id).2, e.id, i⟩)
    (hnan : ∀ e ∈ events, (K e.id).2 ≠ .nan) :
    (totalOrder events resolved).Pairwise fun a b =>
      OrderKey.lt (keyOf K a.id) (keyOf K b.id) = true := by
  have hperm : (ListSort.sorted (fun a b => OrderKey.lt a.1 b.1) (decorated events resolved)).Perm
      (decorated events resolved) := ListSort.sorted_perm _
  have hids : (ListSort.sorted (fun a b => OrderKey.lt a.1 b.1) (decorated events resolved)).Pairwise
      fun a b => a.2.id ≠ b.2.id := by
    have h := ((totalOrder_perm events resolved).map Event.id).nodup_iff.2 hn
    rw [totalOrder, List.map_map] at h
    exact List.pairwise_map.1 h
  change ((ListSort.sorted (fun a b => OrderKey.lt a.1 b.1) (decorated events resolved)).map
    Prod.snd).Pairwise _
  rw [List.pairwise_map]
  refine ((decorated_sorted hK hnan).and hids).imp_of_mem ?_
  rintro a b ha hb ⟨hle, hne⟩
  obtain ⟨hab, htot⟩ := decorated_lt hK hnan (hperm.mem_iff.1 ha) (hperm.mem_iff.1 hb) hne
  rcases htot with h | h
  · exact hab ▸ h
  · rw [h] at hle; cases hle

/-- The order never contradicts the received rounds, NaN or not. -/
theorem totalOrder_received_sorted
    (hK : ∀ e ∈ events, ∀ i, orderKey resolved i e = ⟨(K e.id).1, (K e.id).2, e.id, i⟩) :
    (totalOrder events resolved).Pairwise fun a b => ¬ rrLt (K b.id).1 (K a.id).1 := by
  have hperm : (ListSort.sorted (fun a b => OrderKey.lt a.1 b.1) (decorated events resolved)).Perm
      (decorated events resolved) := ListSort.sorted_perm _
  have hrespects : ListSort.Respects (fun a b : OrderKey × Event => OrderKey.lt a.1 b.1)
      fun a b => ¬ rrLt b.1.roundReceived a.1.roundReceived := by
    refine ⟨fun hab hbc => rrLt_connected hab hbc, fun {a b} hlt hba => ?_, fun {a b} hnlt hab => ?_⟩
    · have hback := OrderKey.lt_asymm ((OrderKey.lt_iff b.1 a.1).2 (.inl hba))
      rw [hback] at hlt; cases hlt
    · rw [(OrderKey.lt_iff a.1 b.1).2 (.inl hab)] at hnlt; cases hnlt
  have hsorted := ListSort.pairwise_sorted hrespects (decorated events resolved)
  change ((ListSort.sorted (fun a b => OrderKey.lt a.1 b.1) (decorated events resolved)).map
    Prod.snd).Pairwise _
  rw [List.pairwise_map]
  refine hsorted.imp_of_mem ?_
  intro a b ha hb hle
  obtain ⟨-, i, hi⟩ := mem_decorated hK (hperm.mem_iff.1 ha)
  obtain ⟨-, j, hj⟩ := mem_decorated hK (hperm.mem_iff.1 hb)
  rw [hi, hj] at hle
  exact hle

end TotalOrder
end Mdrj.L2
