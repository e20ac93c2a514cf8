import Mathlib.Data.List.Basic
import Mathlib.Order.Basic

/-!
# A queue that drops its oldest entry

A bounded queue that is full makes room for a new entry by dropping the
oldest. Seen from its history it is a window: it holds the last entries
offered, the reader has taken some of those before it in order, and an entry
that the reader did not take was overrun by `capacity` later ones
(`Backlog`). Nothing is dropped, then, as long as the reader is never
`capacity` entries behind (`Backlog.complete`).
-/
namespace Mdrj.Core

variable {α : Type} {capacity : ℕ} {offered taken queue : List α} {a : α}

/-- What a queue is to its history: it starts at the position `start` of what
was offered, and the reader took the entries at `positions`. -/
structure BacklogAt (capacity : ℕ) (offered taken queue : List α) (start : ℕ) (positions : List ℕ) : Prop where
  bound : start ≤ offered.length
  held : queue = offered.drop start
  short : queue.length ≤ capacity
  ordered : positions.Pairwise (· < ·)
  read : taken.map some = positions.map fun k => offered[k]?
  before : ∀ k ∈ positions, k < start
  overrun : ∀ k < start, k ∈ positions ∨ k + capacity < offered.length

def Backlog (capacity : ℕ) (offered taken queue : List α) : Prop :=
  ∃ start positions, BacklogAt capacity offered taken queue start positions

namespace Backlog

theorem nil : Backlog capacity ([] : List α) [] [] :=
  ⟨0, [], Nat.le_refl _, rfl, Nat.zero_le _, List.Pairwise.nil, rfl, fun _ hk => absurd hk List.not_mem_nil,
    fun k hk => absurd hk (Nat.not_lt_zero k)⟩

theorem short (h : Backlog capacity offered taken queue) : queue.length ≤ capacity := by
  obtain ⟨_, _, h⟩ := h
  exact h.short

/-- What was read is read from the longer history as well. -/
theorem read_append {start : ℕ} {positions : List ℕ} (h : BacklogAt capacity offered taken queue start positions)
    (more : List α) : taken.map some = positions.map fun k => (offered ++ more)[k]? := by
  rw [h.read]
  refine List.map_congr_left fun k hk => ?_
  rw [List.getElem?_append_left]
  exact Nat.lt_of_lt_of_le (h.before k hk) h.bound

/-- An entry for which there is room. -/
theorem push (h : Backlog capacity offered taken queue) (hroom : queue.length < capacity) :
    Backlog capacity (offered ++ [a]) taken (queue ++ [a]) := by
  obtain ⟨start, positions, h⟩ := h
  refine ⟨start, positions, ?_, ?_, ?_, h.ordered, read_append h _, h.before, fun k hk => ?_⟩
  · rw [List.length_append]
    exact Nat.le_add_right_of_le h.bound
  · rw [List.drop_append_of_le_length h.bound, ← h.held]
  · rw [List.length_append]
    exact hroom
  · refine (h.overrun k hk).imp_right fun hlt => ?_
    rw [List.length_append]
    exact Nat.lt_add_right _ hlt

/-- An entry for which the oldest one goes. -/
theorem pushFull (h : Backlog capacity offered taken queue) (hfull : queue.length = capacity)
    (hcapacity : 0 < capacity) : Backlog capacity (offered ++ [a]) taken (queue.tail ++ [a]) := by
  obtain ⟨start, positions, h⟩ := h
  have hlength : queue.length = offered.length - start := by rw [h.held, List.length_drop]
  have hbound := h.bound
  refine ⟨start + 1, positions, ?_, ?_, ?_, h.ordered, read_append h _, ?_, ?_⟩
  · rw [List.length_append, List.length_singleton]
    omega
  · have htail : queue.tail = offered.drop (start + 1) := by rw [h.held, List.tail_drop]
    rw [htail, List.drop_append_of_le_length (by omega)]
  · rw [List.length_append, List.length_tail, List.length_singleton]
    omega
  · intro k hk
    exact Nat.lt_succ_of_lt (h.before k hk)
  · intro k hk
    rw [List.length_append, List.length_singleton]
    rcases Nat.lt_or_ge k start with hlt | hge
    · exact (h.overrun k hlt).imp_right fun hold => by omega
    · exact .inr (by omega)

/-- The reader takes the first entry. -/
theorem pop {rest : List α} (h : Backlog capacity offered taken (a :: rest)) :
    Backlog capacity offered (taken ++ [a]) rest := by
  obtain ⟨start, positions, h⟩ := h
  have hlength : offered.length - start = rest.length + 1 := by
    rw [← List.length_drop, ← h.held, List.length_cons]
  have hfirst : offered[start]? = some a := by
    have hhead := congrArg (fun l : List α => l[0]?) h.held
    simpa using hhead.symm
  refine ⟨start + 1, positions ++ [start], by omega, ?_, ?_, ?_, ?_, ?_, ?_⟩
  · have htail := congrArg List.tail h.held
    rwa [List.tail_cons, List.tail_drop] at htail
  · exact Nat.le_of_succ_le h.short
  · refine List.pairwise_append.2 ⟨h.ordered, List.pairwise_singleton _ _, fun k hk j hj => ?_⟩
    rw [List.mem_singleton.1 hj]
    exact h.before k hk
  · rw [List.map_append, List.map_append, h.read, List.map_singleton, List.map_singleton, hfirst]
  · intro k hk
    rcases List.mem_append.1 hk with hold | hnew
    · exact Nat.lt_succ_of_lt (h.before k hold)
    · rw [List.mem_singleton.1 hnew]
      exact Nat.lt_succ_self start
  · intro k hk
    rcases Nat.lt_succ_iff_lt_or_eq.1 hk with hlt | rfl
    · exact (h.overrun k hlt).imp_left fun hold => List.mem_append_left _ hold
    · exact .inl (List.mem_append_right _ (List.mem_singleton.2 rfl))

/-- A reader that was never `capacity` entries behind has taken everything
before the queue. -/
theorem complete (h : Backlog capacity offered taken queue) (hfew : offered.length ≤ capacity) :
    offered = taken ++ queue := by
  obtain ⟨start, positions, h⟩ := h
  have hpositions : positions = List.range start := by
    have hasymm : ∀ a b : ℕ, a ∈ positions → b ∈ List.range start → a < b → b < a → a = b :=
      fun a b _ _ hab hba => absurd hab (Nat.lt_asymm hba)
    refine List.Perm.eq_of_pairwise hasymm h.ordered List.pairwise_lt_range ?_
    refine (List.perm_ext_iff_of_nodup (h.ordered.imp fun hlt => Nat.ne_of_lt hlt) List.nodup_range).2 fun k => ?_
    rw [List.mem_range]
    refine ⟨h.before k, fun hk => (h.overrun k hk).resolve_right (by omega)⟩
  have htaken : taken = offered.take start := by
    have hread := h.read
    rw [hpositions] at hread
    refine List.map_injective_iff.2 (fun _ _ => Option.some.inj) (hread.trans ?_)
    refine List.ext_getElem? fun k => ?_
    rw [List.getElem?_map, List.getElem?_map, List.getElem?_take]
    rcases Nat.lt_or_ge k start with hk | hk
    · have hlt : k < offered.length := Nat.lt_of_lt_of_le hk h.bound
      simp [hk, hlt]
    · simp [Nat.not_lt.2 hk]
  rw [htaken, h.held, List.take_append_drop]

end Backlog
end Mdrj.Core
