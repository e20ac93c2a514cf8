import Mdrj.Core.Pointwise
import Mdrj.L4Node.Node

/-!
# The order of vector clocks

Read with 0 for a missing entry, a clock is a map from node ids to numbers,
and clocks are ordered as these maps are, key by key. Two clocks with equal
entries need not be one dictionary: entries of 0 come and go, so the order is
not antisymmetric.

* `relation_eq`: `relation` says how two clocks compare in this order.
* `VectorClock.merge_isLUB`: a merge is the least upper bound.
* `clocks_semilattice`: the laws of comparing and merging.
-/
namespace Mdrj.L5
open Mdrj.Core Mdrj.L4

/-! ## Comparing clocks -/

/-- mirrors mdrj/vectorclock.py:9-13 -/
inductive VectorRelation where
  | before | after | concurrent | equal
  deriving DecidableEq, Repr

/-- `clock.get(node_id, 0)`. -/
def clockAt (clock : Dict String Int) (nodeId : String) : Int := (Dict.get clock nodeId).getD 0

/-- Whether the first clock dominates somewhere, and whether the second one
does. -/
def dominances (clock other : Dict String Int) (keys : List String) : Bool × Bool :=
  keys.foldl (fun found key =>
    if clockAt clock key < clockAt other key then (found.1, true)
    else if clockAt other key < clockAt clock key then (true, found.2)
    else found) (false, false)

/-- mirrors mdrj/vectorclock.py:34-51 -/
def relation (clock other : Dict String Int) : VectorRelation :=
  let (aDominates, bDominates) := dominances clock other (Dict.keys clock ++ Dict.keys other)
  if aDominates && !bDominates then .after
  else if bDominates && !aDominates then .before
  else if !aDominates && !bDominates then .equal
  else .concurrent

namespace VectorRelation

/-- The same relation with the sides exchanged. -/
def swap : VectorRelation → VectorRelation
  | .before => .after
  | .after => .before
  | .concurrent => .concurrent
  | .equal => .equal

theorem swap_eq_after (r : VectorRelation) : r.swap = .after ↔ r = .before := by
  cases r <;> decide

open Classical in
/-- How two elements of an order compare. -/
noncomputable def of {α : Type} [LE α] (a b : α) : VectorRelation :=
  if a ≤ b then if b ≤ a then .equal else .before
  else if b ≤ a then .after else .concurrent

section Order
variable {α : Type} [Preorder α] (a b : α)

theorem of_swap : of b a = (of a b).swap := by
  unfold of
  split <;> split <;> rfl

theorem of_eq_before : of a b = .before ↔ a < b := by
  unfold of
  rw [lt_iff_le_not_ge]
  split <;> split <;> simp_all

theorem of_eq_after : of a b = .after ↔ b < a := by
  rw [of_swap b a, swap_eq_after, of_eq_before]

theorem of_eq_equal : of a b = .equal ↔ a ≤ b ∧ b ≤ a := by
  unfold of
  split <;> split <;> simp_all

theorem of_eq_concurrent : of a b = .concurrent ↔ ¬ a ≤ b ∧ ¬ b ≤ a := by
  unfold of
  split <;> split <;> simp_all

end Order
end VectorRelation

theorem clockAt_of_notMem {clock : Dict String Int} {key : String} (h : key ∉ Dict.keys clock) :
    clockAt clock key = 0 := by
  unfold clockAt
  rw [Dict.get_eq_none.2 h]
  rfl

theorem clockAt_of_get {clock : Dict String Int} {key : String} {n : Int} (h : Dict.get clock key = some n) :
    clockAt clock key = n := by
  unfold clockAt
  rw [h, Option.getD_some]

/-- The flags, whatever the order of the keys. -/
theorem dominances_eq (clock other : Dict String Int) (keys : List String) :
    dominances clock other keys = (keys.any fun key => clockAt other key < clockAt clock key,
      keys.any fun key => clockAt clock key < clockAt other key) := by
  unfold dominances
  rw [foldl_flags fun key hlt => hlt.not_gt]
  simp

/-- `relation` compares the maps. -/
theorem relation_eq (clock other : Dict String Int) :
    relation clock other = .of (clockAt clock) (clockAt other) := by
  have hoff : ∀ key, key ∉ Dict.keys clock ++ Dict.keys other → clockAt clock key = clockAt other key := by
    intro key hkey
    rw [List.mem_append, not_or] at hkey
    rw [clockAt_of_notMem hkey.1, clockAt_of_notMem hkey.2]
  classical
  have hbelow := Bool.eq_iff_iff.2 ((any_lt_iff hoff).trans decide_eq_true_iff.symm)
  have habove := Bool.eq_iff_iff.2
    ((any_lt_iff fun key hkey => (hoff key hkey).symm).trans decide_eq_true_iff.symm)
  unfold relation VectorRelation.of
  rw [dominances_eq, hbelow, habove]
  by_cases hle : clockAt clock ≤ clockAt other
  · by_cases hge : clockAt other ≤ clockAt clock
    · simp [hle, hge]
    · simp [hle, hge]
  · by_cases hge : clockAt other ≤ clockAt clock
    · simp [hle, hge]
    · simp [hle, hge]

/-- No entry is larger, and one is smaller. -/
structure Below (clock other : Dict String Int) : Prop where
  le : ∀ key, clockAt clock key ≤ clockAt other key
  lt : ∃ key, clockAt clock key < clockAt other key

theorem Below.trans {a b c : Dict String Int} (hab : Below a b) (hbc : Below b c) : Below a c := by
  obtain ⟨key, hlt⟩ := hab.lt
  exact ⟨fun k => (hab.le k).trans (hbc.le k), key, hlt.trans_le (hbc.le key)⟩

theorem relation_before {clock other : Dict String Int} (h : Below clock other) :
    relation clock other = .before := by
  rw [relation_eq, VectorRelation.of_eq_before, Pi.lt_def]
  exact ⟨h.le, h.lt⟩

/-! ## Merging and incrementing -/

/-- A dictionary of counters. -/
structure Counters (clock : Dict String Int) : Prop where
  nodup : (Dict.keys clock).Nodup
  nonneg : ∀ key, 0 ≤ clockAt clock key

theorem clockAt_set (clock : Dict String Int) (key key' : String) (n : Int) :
    clockAt (Dict.set clock key n) key' = if key = key' then n else clockAt clock key' := by
  unfold clockAt
  rw [Dict.get_set]
  split <;> rfl

theorem Counters.nil : Counters [] := ⟨List.nodup_nil, fun _ => le_rfl⟩

/-- Raising one entry, as the loop of a merge does. -/
theorem raise_le_iff {bound : String → Int} (clock : Dict String Int) (q : String × Int) :
    (∀ key, clockAt (Dict.set clock q.1 (max ((Dict.get clock q.1).getD 0) q.2)) key ≤ bound key) ↔
      (∀ key, clockAt clock key ≤ bound key) ∧ q.2 ≤ bound q.1 := by
  simp only [clockAt_set]
  constructor
  · intro h
    have hq := h q.1
    rw [if_pos rfl, max_le_iff] at hq
    refine ⟨fun key => ?_, hq.2⟩
    by_cases hkey : q.1 = key
    · exact hkey ▸ hq.1
    · have hother := h key
      rwa [if_neg hkey] at hother
  · intro h key
    split
    · next hkey => exact hkey ▸ max_le (h.1 q.1) h.2
    · exact h.1 key

/-- A merge is below what the clock and the entries of the other are below. -/
theorem mergeClock_le_iff {bound : String → Int} (other : Dict String Int) : ∀ clock,
    (∀ key, clockAt (mergeClock clock other) key ≤ bound key) ↔
      (∀ key, clockAt clock key ≤ bound key) ∧ ∀ p ∈ other, p.2 ≤ bound p.1 := by
  induction other with
  | nil => intro clock; simp [mergeClock]
  | cons q other ih =>
    intro clock
    rw [List.forall_mem_cons, ← and_assoc, ← raise_le_iff]
    exact ih _

theorem mergeClock_left (clock other : Dict String Int) (key : String) :
    clockAt clock key ≤ clockAt (mergeClock clock other) key :=
  ((mergeClock_le_iff other clock).1 fun _ => le_rfl).1 key

theorem mergeClock_right {clock : Dict String Int} (h : Counters clock) (other : Dict String Int)
    (key : String) : clockAt other key ≤ clockAt (mergeClock clock other) key := by
  cases hget : Dict.get other key with
  | none =>
    rw [clockAt_of_notMem (Dict.get_eq_none.1 hget)]
    exact (h.nonneg key).trans (mergeClock_left clock other key)
  | some n =>
    rw [clockAt_of_get hget]
    exact ((mergeClock_le_iff other clock).1 fun _ => le_rfl).2 (key, n) (Dict.mem_of_get hget)

theorem Counters.merge {clock : Dict String Int} (h : Counters clock) (other : Dict String Int) :
    Counters (mergeClock clock other) := by
  refine ⟨?_, fun key => (h.nonneg key).trans (mergeClock_left clock other key)⟩
  have hnodup := h.nodup
  clear h
  unfold mergeClock
  induction other generalizing clock with
  | nil => exact hnodup
  | cons q other ih => exact ih (Dict.nodup_set hnodup _ _)

theorem clockAt_increment (clock : Dict String Int) (nodeId key : String) :
    clockAt (incrementClock clock nodeId) key =
      if nodeId = key then clockAt clock nodeId + 1 else clockAt clock key := clockAt_set _ _ _ _

theorem Counters.increment {clock : Dict String Int} (h : Counters clock) (nodeId : String) :
    Counters (incrementClock clock nodeId) := by
  refine ⟨Dict.nodup_set h.nodup _ _, fun key => ?_⟩
  rw [clockAt_increment]
  split
  · have := h.nonneg nodeId
    omega
  · exact h.nonneg key

/-- What is nowhere above a clock is below the incremented one. -/
theorem below_increment {clock other : Dict String Int} (h : ∀ key, clockAt other key ≤ clockAt clock key)
    (nodeId : String) : Below other (incrementClock clock nodeId) := by
  refine ⟨fun key => ?_, nodeId, ?_⟩
  · rw [clockAt_increment]
    split
    · rename_i hkey
      have hle := h key
      rw [← hkey] at hle ⊢
      omega
    · exact h key
  · have hle := h nodeId
    rw [clockAt_increment, if_pos rfl]
    omega

theorem clockAt_perm {clock other : Dict String Int} (hperm : other.Perm clock) (h : Counters clock)
    (key : String) : clockAt other key = clockAt clock key := by
  have hkeys : (Dict.keys other).Nodup := (hperm.map Prod.fst).nodup_iff.2 h.nodup
  have hget : Dict.get other key = Dict.get clock key := by
    refine Option.ext fun n => ?_
    rw [← Dict.mem_iff_get hkeys, ← Dict.mem_iff_get h.nodup]
    exact hperm.mem_iff
  unfold clockAt
  rw [hget]

/-- Of the same entries, both or neither are below. -/
theorem Below.of_perm {a b c : Dict String Int} (h : Below b c) (hperm : b.Perm a) (ha : Counters a) :
    Below a c := by
  have hat := clockAt_perm hperm ha
  obtain ⟨key, hlt⟩ := h.lt
  exact ⟨fun key => hat key ▸ h.le key, key, hat key ▸ hlt⟩

/-! ## The lattice -/

/-- Clocks with counters that are not negative. -/
structure VectorClock where
  clock : Dict String Int
  counters : Counters clock

namespace VectorClock

/-- Key by key, reading a missing entry as 0. -/
instance : Preorder VectorClock where
  le a b := ∀ key, clockAt a.clock key ≤ clockAt b.clock key
  le_refl a key := le_refl (clockAt a.clock key)
  le_trans _ _ _ hab hbc key := (hab key).trans (hbc key)

theorem le_def {a b : VectorClock} : a ≤ b ↔ ∀ key, clockAt a.clock key ≤ clockAt b.clock key := Iff.rfl

def empty : VectorClock := ⟨[], .nil⟩

def increment (a : VectorClock) (nodeId : String) : VectorClock :=
  ⟨incrementClock a.clock nodeId, a.counters.increment nodeId⟩

def merge (a b : VectorClock) : VectorClock := ⟨mergeClock a.clock b.clock, a.counters.merge b.clock⟩

theorem merge_isLUB (a b : VectorClock) : IsLUB {a, b} (a.merge b) := by
  refine ⟨?_, fun c hc => ?_⟩
  · rw [upperBounds_insert, upperBounds_singleton]
    exact ⟨mergeClock_left a.clock b.clock, mergeClock_right a.counters b.clock⟩
  · rw [upperBounds_insert, upperBounds_singleton] at hc
    refine (mergeClock_le_iff b.clock a.clock).2 ⟨hc.1, fun p hp => ?_⟩
    rw [← clockAt_of_get (Dict.get_of_mem b.counters.nodup hp)]
    exact le_def.1 hc.2 p.1

end VectorClock

/-- mirrors mdrj/vectorclock.py:74-78 -/
def mergeAll (clocks : List (Dict String Int)) : Dict String Int := clocks.foldl mergeClock []

theorem mergeAll_eq (clocks : List VectorClock) :
    mergeAll (clocks.map VectorClock.clock) = (clocks.foldl VectorClock.merge .empty).clock := by
  have hstep : ∀ a b : VectorClock, mergeClock a.clock b.clock = (a.merge b).clock := fun _ _ => rfl
  have hfold : (clocks.map VectorClock.clock).foldl mergeClock VectorClock.empty.clock =
      (clocks.foldl VectorClock.merge .empty).clock := List.foldl_map_hom hstep
  exact hfold

/-- **Vector clocks are a join semilattice.** `relation` compares clocks as
the order does, a merge is the least upper bound, and what a list merges to
depends on its members only, not on their order or repetition. -/
theorem clocks_semilattice (a b : VectorClock) :
    ((relation a.clock b.clock = .before ↔ a < b) ∧ (relation a.clock b.clock = .after ↔ b < a) ∧
      (relation a.clock b.clock = .equal ↔ a ≤ b ∧ b ≤ a) ∧
      (relation a.clock b.clock = .concurrent ↔ ¬ a ≤ b ∧ ¬ b ≤ a)) ∧
    relation b.clock a.clock = (relation a.clock b.clock).swap ∧
    (∀ c : VectorClock, relation a.clock b.clock = .before → relation b.clock c.clock = .before →
      relation a.clock c.clock = .before) ∧
    IsLUB {a, b} (a.merge b) ∧
    ∀ clocks clocks' : List VectorClock, (∀ c, c ∈ clocks ↔ c ∈ clocks') →
      ∀ key, clockAt (mergeAll (clocks.map VectorClock.clock)) key =
        clockAt (mergeAll (clocks'.map VectorClock.clock)) key := by
  simp only [relation_eq]
  refine ⟨⟨VectorRelation.of_eq_before _ _, VectorRelation.of_eq_after _ _, VectorRelation.of_eq_equal _ _,
    VectorRelation.of_eq_concurrent _ _⟩, VectorRelation.of_swap _ _, fun c hab hbc => ?_, a.merge_isLUB b,
    fun clocks clocks' hmem key => ?_⟩
  · rw [VectorRelation.of_eq_before] at hab hbc ⊢
    exact hab.trans hbc
  · rw [mergeAll_eq, mergeAll_eq]
    have hle := foldl_join_le VectorClock.merge_isLUB (fun c => (hmem c).1) .empty
    have hge := foldl_join_le VectorClock.merge_isLUB (fun c => (hmem c).2) .empty
    exact le_antisymm (hle key) (hge key)

/-- Three clocks, each after the one before it. -/
theorem clocks_semilattice_chain :
    relation [("a", 1)] [("a", 1), ("b", 1), ("c", 1)] = .before ∧
    clockAt (mergeAll [[("a", 1)], [("a", 1), ("b", 1)]]) "b" =
      clockAt (mergeAll [[("a", 1), ("b", 1)], [("a", 1)], [("a", 1)]]) "b" := by
  let a := VectorClock.empty.increment "a"
  let b := a.increment "b"
  obtain ⟨-, -, htrans, -, hmerge⟩ := clocks_semilattice a b
  refine ⟨htrans (b.increment "c") (by decide) (by decide), ?_⟩
  exact hmerge [a, b] [b, a, a] (by simp [or_comm]) "b"

end Mdrj.L5
