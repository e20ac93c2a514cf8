import Mathlib.Data.Finset.Lattice.Lemmas

/-!
# A queue with a set of its entries

A FIFO queue next to the set of what is in it, which keeps an entry from
being queued twice. The two are kept by separate statements, so that they
agree is an invariant (`Coherent`), which adding keeps.
-/
namespace Mdrj.Core

structure WorkQueue (α : Type) where
  pending : List α := []
  known : Finset α := ∅

namespace WorkQueue
variable {α : Type} [DecidableEq α]

def add (q : WorkQueue α) (a : α) : WorkQueue α :=
  if a ∈ q.known then q else ⟨q.pending ++ [a], insert a q.known⟩

def addAll (q : WorkQueue α) (entries : List α) : WorkQueue α := entries.foldl add q

/-- No entry twice, and the set is what is queued. -/
structure Coherent (q : WorkQueue α) : Prop where
  nodup : q.pending.Nodup
  known : q.pending.toFinset = q.known

theorem Coherent.mem_known {q : WorkQueue α} (h : q.Coherent) {a : α} : a ∈ q.known ↔ a ∈ q.pending := by
  rw [← h.known, List.mem_toFinset]

theorem mem_known_add {q : WorkQueue α} {a b : α} : b ∈ (q.add a).known ↔ b = a ∨ b ∈ q.known := by
  unfold add
  split
  · rename_i h
    exact ⟨.inr, fun hb => hb.elim (fun e => e ▸ h) id⟩
  · simp

theorem mem_known_addAll {entries : List α} {q : WorkQueue α} {b : α} :
    b ∈ (q.addAll entries).known ↔ b ∈ entries ∨ b ∈ q.known := by
  induction entries generalizing q with
  | nil => simp [addAll]
  | cons a entries ih =>
    rw [show q.addAll (a :: entries) = (q.add a).addAll entries from rfl, ih, mem_known_add,
      List.mem_cons]
    tauto

theorem Coherent.add {q : WorkQueue α} (h : q.Coherent) (a : α) : (q.add a).Coherent := by
  unfold WorkQueue.add
  split
  · exact h
  · rename_i hnew
    rw [h.mem_known] at hnew
    refine ⟨?_, ?_⟩
    · rw [← List.concat_eq_append]
      exact (List.nodup_concat _ _).2 ⟨hnew, h.nodup⟩
    · rw [List.toFinset_append, h.known]
      simp

theorem Coherent.addAll {q : WorkQueue α} (h : q.Coherent) (entries : List α) :
    (q.addAll entries).Coherent := by
  induction entries generalizing q with
  | nil => exact h
  | cons a entries ih => exact ih (h.add a)

theorem Coherent.mem_addAll {q : WorkQueue α} (h : q.Coherent) (entries : List α) {b : α} :
    b ∈ (q.addAll entries).pending ↔ b ∈ entries ∨ b ∈ q.pending := by
  rw [← (h.addAll entries).mem_known, mem_known_addAll, h.mem_known]

theorem length_addAll_le (entries : List α) (q : WorkQueue α) :
    (q.addAll entries).pending.length ≤ q.pending.length + entries.length := by
  induction entries generalizing q with
  | nil => exact Nat.le_refl _
  | cons a entries ih =>
    have hadd : (q.add a).pending.length ≤ q.pending.length + 1 := by
      unfold add
      split
      · omega
      · simp
    have hrest := ih (q.add a)
    rw [List.length_cons]
    exact hrest.trans (by omega)

end WorkQueue
end Mdrj.Core
