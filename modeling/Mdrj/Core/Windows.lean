import Mathlib.Algebra.Order.BigOperators.Group.List
import Mathlib.Algebra.Order.Group.Nat
import Mathlib.Algebra.Ring.Nat

/-!
# Windows of a counter

A counter that never falls is read at the end of each window, and a window
counts what the reading has over the baseline it started from. The next
baseline is set later, when the counter may have moved on; what came between
the reading and the baseline is in no window. `sum_counted_iff`: the windows
together count the whole increase exactly when no baseline but the last is
ahead of its reading.
-/
namespace Mdrj.Core

/-- The end of a window, with the baseline of the next one. -/
structure Mark where
  reading : ℕ
  baseline : ℕ

namespace Mark

/-- What each window counts. -/
def counted : ℕ → List Mark → List ℕ
  | _, [] => []
  | base, m :: marks => (m.reading - base) :: counted m.baseline marks

/-- Readings and baselines as a counter that never falls gives them. -/
def Rising : ℕ → List Mark → Prop
  | _, [] => True
  | base, m :: marks => base ≤ m.reading ∧ m.reading ≤ m.baseline ∧ Rising m.baseline marks

/-- What was counted between two windows. -/
def missed (marks : List Mark) : ℕ := (marks.dropLast.map fun m => m.baseline - m.reading).sum

def lastReading (base : ℕ) (marks : List Mark) : ℕ := (marks.getLast?.map reading).getD base

theorem sum_counted_add_missed : ∀ {base : ℕ} {marks : List Mark}, Rising base marks →
    base + (counted base marks).sum + missed marks = lastReading base marks
  | base, [], _ => by simp [counted, missed, lastReading]
  | base, [m], h => by
    have := h.1
    simp [counted, missed, lastReading]
    omega
  | base, m :: m' :: marks, h => by
    have ih := sum_counted_add_missed h.2.2
    have hlast : lastReading base (m :: m' :: marks) = lastReading m.baseline (m' :: marks) := by
      simp [lastReading, List.getLast?_cons]
    have hmissed : missed (m :: m' :: marks) = m.baseline - m.reading + missed (m' :: marks) := by
      simp [missed]
    have hsum : (counted base (m :: m' :: marks)).sum =
        m.reading - base + (counted m.baseline (m' :: marks)).sum := by
      simp [counted]
    have := h.1
    have := h.2.1
    rw [hlast, hmissed, hsum, ← ih]
    omega

/-- **Telescoping.** Nothing is lost between the windows. -/
theorem sum_counted_iff {base : ℕ} {marks : List Mark} (h : Rising base marks) :
    base + (counted base marks).sum = lastReading base marks ↔
      ∀ m ∈ marks.dropLast, m.baseline - m.reading = 0 := by
  have htotal := sum_counted_add_missed h
  have hzero : missed marks = 0 ↔ ∀ m ∈ marks.dropLast, m.baseline - m.reading = 0 := by
    rw [missed, List.sum_eq_zero_iff, List.forall_mem_map]
  rw [← hzero]
  omega

end Mark
end Mdrj.Core
