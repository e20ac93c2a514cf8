import Mathlib.Data.List.Infix

/-!
# Streaks

A counter that goes up with each failure and back to zero with each success
is the length of the streak of failures at the end of the history.
-/
namespace Mdrj.Core

variable {α : Type} {failed : α → Bool} {history : List α}

/-- The number of failures since the last success. -/
def streak (failed : α → Bool) (history : List α) : ℕ := (history.reverse.takeWhile failed).length

@[simp] theorem streak_nil : streak failed [] = 0 := rfl

theorem streak_concat (history : List α) (a : α) :
    streak failed (history ++ [a]) = if failed a then streak failed history + 1 else 0 := by
  unfold streak
  rw [List.reverse_append, List.reverse_singleton, List.singleton_append, List.takeWhile_cons]
  cases failed a <;> simp

/-- A streak is as long as the failures at the end are many. -/
theorem le_streak_iff {k : ℕ} : k ≤ streak failed history ↔
    ∃ before last, history = before ++ last ∧ last.length = k ∧ ∀ a ∈ last, failed a = true := by
  induction history using List.reverseRecOn generalizing k with
  | nil =>
    rw [streak_nil, Nat.le_zero]
    constructor
    · rintro rfl
      exact ⟨[], [], rfl, rfl, fun a ha => absurd ha List.not_mem_nil⟩
    · intro h
      obtain ⟨before, last, hsplit, rfl, -⟩ := h
      rw [(List.append_eq_nil_iff.1 hsplit.symm).2, List.length_nil]
  | append_singleton history a ih =>
    rw [streak_concat]
    cases k with
    | zero => exact ⟨fun _ => ⟨history ++ [a], [], by simp, rfl, fun b hb => absurd hb List.not_mem_nil⟩, fun _ => Nat.zero_le _⟩
    | succ k =>
      cases ha : failed a with
      | false =>
        refine ⟨fun h => absurd h (Nat.not_succ_le_zero k), fun h => ?_⟩
        obtain ⟨before, last, hsplit, hlength, hall⟩ := h
        obtain rfl | ⟨last, b, rfl⟩ := List.eq_nil_or_concat last
        · exact absurd hlength (Nat.succ_ne_zero k).symm
        · rw [List.concat_eq_append, ← List.append_assoc] at hsplit
          obtain rfl := (List.cons.inj (List.append_inj' hsplit rfl).2).1
          rw [hall a (by simp)] at ha
          cases ha
      | true =>
        rw [if_pos rfl, Nat.succ_le_succ_iff, ih]
        constructor
        · intro h
          obtain ⟨before, last, rfl, rfl, hall⟩ := h
          refine ⟨before, last ++ [a], (List.append_assoc ..), by simp, fun b hb => ?_⟩
          rcases List.mem_append.1 hb with hold | hnew
          · exact hall b hold
          · rw [List.mem_singleton.1 hnew]
            exact ha
        · intro h
          obtain ⟨before, last, hsplit, hlength, hall⟩ := h
          obtain rfl | ⟨last, b, rfl⟩ := List.eq_nil_or_concat last
          · exact absurd hlength (Nat.succ_ne_zero k).symm
          · rw [List.concat_eq_append] at hsplit hlength hall
            rw [← List.append_assoc] at hsplit
            refine ⟨before, last, (List.append_inj' hsplit rfl).1, by simpa using hlength, fun c hc => ?_⟩
            exact hall c (List.mem_append_left _ hc)

end Mdrj.Core
