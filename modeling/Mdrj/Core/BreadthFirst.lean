import Mathlib.Data.List.Basic
import Mathlib.Order.Lattice.Nat
import Mathlib.Logic.Relation

/-!
# Breadth-first listing

The nodes met by a breadth-first search with a queue and a set of visited
nodes, cut off after a number of nodes. `next x` is `none` for a node that is
not there; such a node is passed over and does not count. A shorter listing
is an initial part of a longer one (`bfs_take`), so a bound on the search is
a bound on how much of one listing is seen.

What the listing is, for every graph, with cycles or without:
* `bfs_length`, `bfs_nodup`, `bfs_isSome`: so many different nodes that are there;
* `bfs_successor`: each one but the first is a successor of an earlier one;
* `bfs_sorted`: it goes by distance from the start;
* `bfs_complete`: a listing that is not cut off has everything reachable.
-/
namespace Mdrj.Core

namespace BreadthFirst
variable {κ : Type}

/-- `z` is a successor of `y`, and both are there. -/
def Step (next : κ → Option (List κ)) (y z : κ) : Prop :=
  ∃ succs, next y = some succs ∧ z ∈ succs ∧ (next z).isSome = true

/-- A walk of so many steps. -/
def Walk (r : κ → κ → Prop) : Nat → κ → κ → Prop
  | 0, x, y => x = y
  | n + 1, x, z => ∃ y, Walk r n x y ∧ r y z

/-- The length of a shortest walk. -/
noncomputable def distance (r : κ → κ → Prop) (x y : κ) : Nat := sInf {n | Walk r n x y}

theorem distance_eq {r : κ → κ → Prop} {x y : κ} {n : Nat} (h : Walk r n x y)
    (hmin : ∀ m < n, ¬ Walk r m x y) : distance r x y = n := by
  refine le_antisymm (Nat.sInf_le h) ?_
  by_contra hlt
  have hmem : Walk r (distance r x y) x y := Nat.sInf_mem (s := {n | Walk r n x y}) ⟨n, h⟩
  exact hmin _ (Nat.lt_of_not_le hlt) hmem

end BreadthFirst

variable {κ : Type} [DecidableEq κ]

def bfs (next : κ → Option (List κ)) : Nat → List κ → List κ → List κ
  | 0, _, _ => []
  | _ + 1, [], _ => []
  | n + 1, x :: queue, visited =>
    if x ∈ visited then bfs next (n + 1) queue visited
    else match next x with
      | none => bfs next (n + 1) queue (x :: visited)
      | some succs =>
        x :: bfs next n (queue ++ succs.filter (· ∉ x :: visited)) (x :: visited)
termination_by n queue => (n, queue.length)

variable {next : κ → Option (List κ)}

theorem bfs_isSome (n : Nat) (queue visited : List κ) :
    ∀ x ∈ bfs next n queue visited, (next x).isSome = true := by
  induction n, queue, visited using bfs.induct next with
  | case1 queue visited => rw [bfs]; intro x hx; cases hx
  | case2 n visited => rw [bfs]; intro x hx; cases hx
  | case3 n x queue visited hx ih => rw [bfs, if_pos hx]; exact ih
  | case4 n x queue visited hx hn ih => rw [bfs, if_neg hx, hn]; exact ih
  | case5 n x queue visited hx succs hn ih =>
    rw [bfs, if_neg hx, hn]
    intro y hy
    rcases List.mem_cons.1 hy with rfl | hy
    · rw [hn]; rfl
    · exact ih y hy

theorem bfs_take (k n : Nat) (queue visited : List κ) :
    bfs next n queue visited = (bfs next (n + k) queue visited).take n := by
  induction n, queue, visited using bfs.induct next with
  | case1 queue visited => rw [bfs, List.take_zero]
  | case2 n visited => rw [bfs, Nat.succ_add, bfs, List.take_nil]
  | case3 n x queue visited hx ih =>
    rw [bfs, if_pos hx, ih, Nat.succ_add, bfs, if_pos hx]
  | case4 n x queue visited hx hn ih =>
    rw [bfs, if_neg hx, hn, Nat.succ_add, bfs, if_neg hx, hn]
    dsimp only
    rw [ih, Nat.succ_add]
  | case5 n x queue visited hx succs hn ih =>
    rw [bfs, if_neg hx, hn, Nat.succ_add, bfs, if_neg hx, hn]
    dsimp only
    rw [ih, List.take_succ_cons]

theorem bfs_length (n : Nat) (queue visited : List κ) : (bfs next n queue visited).length ≤ n := by
  rw [bfs_take 0, List.length_take]
  exact min_le_left _ _

theorem bfs_nodup (n : Nat) (queue visited : List κ) :
    (bfs next n queue visited).Nodup ∧ ∀ y ∈ bfs next n queue visited, y ∉ visited := by
  induction n, queue, visited using bfs.induct next with
  | case1 queue visited => rw [bfs]; exact ⟨List.nodup_nil, fun y hy => absurd hy List.not_mem_nil⟩
  | case2 n visited => rw [bfs]; exact ⟨List.nodup_nil, fun y hy => absurd hy List.not_mem_nil⟩
  | case3 n x queue visited hx ih => rw [bfs, if_pos hx]; exact ih
  | case4 n x queue visited hx hn ih =>
    rw [bfs, if_neg hx, hn]
    exact ⟨ih.1, fun y hy hv => ih.2 y hy (List.mem_cons_of_mem _ hv)⟩
  | case5 n x queue visited hx succs hn ih =>
    rw [bfs, if_neg hx, hn]
    refine ⟨List.nodup_cons.2 ⟨fun hmem => ih.2 x hmem List.mem_cons_self, ih.1⟩, fun y hy hv => ?_⟩
    rcases List.mem_cons.1 hy with rfl | hy
    · exact hx hv
    · exact ih.2 y hy (List.mem_cons_of_mem _ hv)

namespace BreadthFirst

/-! ## Successors of what is listed -/

/-- Everything listed is a successor of something listed before, or of one of
the nodes the queue comes from. -/
theorem bfs_successor (n : Nat) (queue visited : List κ) (listed : List κ)
    (hqueue : ∀ y ∈ queue, ∃ p ∈ listed, ∃ succs, next p = some succs ∧ y ∈ succs) :
    ∀ pre y post, bfs next n queue visited = pre ++ y :: post →
      ∃ p ∈ listed ++ pre, ∃ succs, next p = some succs ∧ y ∈ succs := by
  induction n, queue, visited using bfs.induct next generalizing listed with
  | case1 queue visited => rw [bfs]; intro pre y post h; simp at h
  | case2 n visited => rw [bfs]; intro pre y post h; simp at h
  | case3 n x queue visited hx ih =>
    rw [bfs, if_pos hx]
    exact ih listed fun y hy => hqueue y (List.mem_cons_of_mem _ hy)
  | case4 n x queue visited hx hn ih =>
    rw [bfs, if_neg hx, hn]
    exact ih listed fun y hy => hqueue y (List.mem_cons_of_mem _ hy)
  | case5 n x queue visited hx succs hn ih =>
    rw [bfs, if_neg hx, hn]
    intro pre y post hsplit
    cases pre with
    | nil =>
      obtain ⟨rfl, -⟩ := List.cons.inj hsplit
      obtain ⟨p, hp, hsucc⟩ := hqueue x List.mem_cons_self
      exact ⟨p, List.mem_append_left _ hp, hsucc⟩
    | cons z pre =>
      obtain ⟨rfl, hrest⟩ := List.cons.inj hsplit
      -- the rest of the search comes from what was listed and from `x`
      have hnew : ∀ y ∈ queue ++ succs.filter (· ∉ x :: visited), ∃ p ∈ listed ++ [x], ∃ succs,
          next p = some succs ∧ y ∈ succs := by
        intro y hy
        rcases List.mem_append.1 hy with hy | hy
        · obtain ⟨p, hp, hsucc⟩ := hqueue y (List.mem_cons_of_mem _ hy)
          exact ⟨p, List.mem_append_left _ hp, hsucc⟩
        · exact ⟨x, by simp, succs, hn, List.mem_of_mem_filter hy⟩
      obtain ⟨p, hp, hsucc⟩ := ih (listed ++ [x]) hnew pre y post hrest
      exact ⟨p, by simpa using hp, hsucc⟩

/-! ## Closed searches -/

omit [DecidableEq κ] in
theorem not_step_of_none {x : κ} (hn : next x = none) (z : κ) : ¬ Step next x z := by
  intro hz
  obtain ⟨succs, hsome, -⟩ := hz
  rw [hn] at hsome
  cases hsome

/-- The successors of a node have been visited, or are found now. -/
theorem found_of_step {x z : κ} {succs visited : List κ} (hn : next x = some succs) (hz : Step next x z) :
    z ∈ visited ∨ z ∈ succs.filter (· ∉ visited) := by
  obtain ⟨succs', hsucc, hmem, -⟩ := hz
  obtain rfl := Option.some.inj (hn.symm.trans hsucc)
  by_cases hv : z ∈ visited
  · exact .inl hv
  · exact .inr (List.mem_filter.2 ⟨hmem, decide_eq_true hv⟩)

/-- The successors of what was visited are visited or queued. -/
def Closed (next : κ → Option (List κ)) (visited queue : List κ) : Prop :=
  ∀ y ∈ visited, ∀ z, Step next y z → z ∈ visited ∨ z ∈ queue

namespace Closed
omit [DecidableEq κ]
variable {x : κ} {visited queue : List κ}

theorem skip (h : Closed next visited (x :: queue)) (hx : x ∈ visited) : Closed next visited queue := by
  intro y hy z hz
  rcases h y hy z hz with hv | hq
  · exact .inl hv
  · exact (List.mem_cons.1 hq).imp_left fun e : z = x => e ▸ hx

theorem visit (h : Closed next visited (x :: queue)) (found : List κ)
    (hall : ∀ z, Step next x z → z ∈ x :: visited ∨ z ∈ found) :
    Closed next (x :: visited) (queue ++ found) := by
  intro y hy z hz
  rcases List.mem_cons.1 hy with rfl | hy
  · exact (hall z hz).imp_right (List.mem_append_right _)
  · rcases h y hy z hz with hv | hq
    · exact .inl (List.mem_cons_of_mem _ hv)
    · rcases List.mem_cons.1 hq with rfl | hq
      · exact .inl List.mem_cons_self
      · exact .inr (List.mem_append_left _ hq)

end Closed

/-! ## Levels -/

/-- The queue while level `k` is listed: what is left of the level, and what
was found of the next one. -/
structure Levels (next : κ → Option (List κ)) (start : κ) (k : Nat) (now later visited : List κ) :
    Prop where
  walks : ∀ y ∈ now, (next y).isSome = true → Walk (Step next) k start y
  walksOn : ∀ y ∈ later, (next y).isSome = true → Walk (Step next) (k + 1) start y
  below : ∀ m < k, ∀ y, Walk (Step next) m start y → y ∈ visited
  level : ∀ y, Walk (Step next) k start y → y ∈ visited ∨ y ∈ now
  closed : Closed next visited (now ++ later)

namespace Levels
omit [DecidableEq κ]
variable {start x : κ} {k : Nat} {now later visited : List κ}

theorem init (next : κ → Option (List κ)) (start : κ) : Levels next start 0 [start] [] [] := by
  refine ⟨fun y hy _ => (List.mem_singleton.1 hy).symm, fun y hy => absurd hy List.not_mem_nil,
    fun m hm => absurd hm (Nat.not_lt_zero m), fun y hy => .inr ?_, fun y hy => absurd hy List.not_mem_nil⟩
  rw [show start = y from hy]
  exact List.mem_singleton_self y

/-- A level that is over. -/
theorem turn (h : Levels next start k [] later visited) : Levels next start (k + 1) later [] visited := by
  have hdone : ∀ y, Walk (Step next) k start y → y ∈ visited := fun y hy =>
    (h.level y hy).resolve_right List.not_mem_nil
  refine ⟨h.walksOn, fun y hy => absurd hy List.not_mem_nil, fun m hm y hy => ?_, fun z hz => ?_,
    (List.append_nil later).symm ▸ h.closed⟩
  · rcases Nat.lt_succ_iff_lt_or_eq.1 hm with hlt | rfl
    · exact h.below m hlt y hy
    · exact hdone y hy
  · obtain ⟨y, hy, hstep⟩ := hz
    exact h.closed y (hdone y hy) z hstep

theorem skip (h : Levels next start k (x :: now) later visited) (hx : x ∈ visited) :
    Levels next start k now later visited := by
  refine ⟨fun y hy => h.walks y (List.mem_cons_of_mem _ hy), h.walksOn, h.below, fun y hy => ?_,
    h.closed.skip hx⟩
  rcases h.level y hy with hy | hy
  · exact .inl hy
  · exact (List.mem_cons.1 hy).imp_left fun e : y = x => e ▸ hx

/-- `x` is visited, and its successors are queued. -/
theorem visit (h : Levels next start k (x :: now) later visited) (found : List κ)
    (hfound : ∀ y ∈ found, (next y).isSome = true → Walk (Step next) (k + 1) start y)
    (hall : ∀ z, Step next x z → z ∈ x :: visited ∨ z ∈ found) :
    Levels next start k now (later ++ found) (x :: visited) := by
  refine ⟨fun y hy => h.walks y (List.mem_cons_of_mem _ hy), fun y hy => ?_,
    fun m hm y hy => List.mem_cons_of_mem _ (h.below m hm y hy), fun y hy => ?_,
    List.append_assoc now later found ▸ h.closed.visit found hall⟩
  · exact (List.mem_append.1 hy).elim (h.walksOn y) (hfound y)
  · rcases h.level y hy with hy | hy
    · exact .inl (List.mem_cons_of_mem _ hy)
    · exact (List.mem_cons.1 hy).imp_left fun e : y = x => e ▸ List.mem_cons_self

/-- The head of a queue is of the level at hand or, if that is over, of the
next one. -/
theorem head {queue : List κ} (h : Levels next start k now later visited)
    (hq : x :: queue = now ++ later) : ∃ k' now' later', k ≤ k' ∧ queue = now' ++ later' ∧
      Levels next start k' (x :: now') later' visited := by
  cases now with
  | nil =>
    obtain rfl : x :: queue = later := hq
    exact ⟨k + 1, queue, [], Nat.le_succ k, (List.append_nil _).symm, h.turn⟩
  | cons y now =>
    obtain ⟨rfl, rfl⟩ := List.cons.inj hq
    exact ⟨k, now, later, Nat.le_refl k, rfl, h⟩

theorem distance_head (h : Levels next start k (x :: now) later visited) (hx : x ∉ visited)
    (hsome : (next x).isSome = true) : distance (Step next) start x = k :=
  distance_eq (h.walks x List.mem_cons_self hsome) fun m hm hw => hx (h.below m hm x hw)

end Levels

/-- The listing goes by distance. -/
theorem bfs_sorted {start : κ} (n : Nat) (queue visited : List κ) :
    ∀ k now later, queue = now ++ later → Levels next start k now later visited →
      (∀ y ∈ bfs next n queue visited, k ≤ distance (Step next) start y) ∧
      (bfs next n queue visited).Pairwise
        fun a b => distance (Step next) start a ≤ distance (Step next) start b := by
  induction n, queue, visited using bfs.induct next with
  | case1 queue visited =>
    intro k now later _ _
    rw [bfs]
    exact ⟨fun y hy => absurd hy List.not_mem_nil, List.Pairwise.nil⟩
  | case2 n visited =>
    intro k now later _ _
    rw [bfs]
    exact ⟨fun y hy => absurd hy List.not_mem_nil, List.Pairwise.nil⟩
  | case3 n x queue visited hx ih =>
    intro k now later hq h
    obtain ⟨k', now', later', hk, hq', h'⟩ := h.head hq
    obtain ⟨hle, hsorted⟩ := ih k' now' later' hq' (h'.skip hx)
    rw [bfs, if_pos hx]
    exact ⟨fun y hy => hk.trans (hle y hy), hsorted⟩
  | case4 n x queue visited hx hn ih =>
    intro k now later hq h
    obtain ⟨k', now', later', hk, hq', h'⟩ := h.head hq
    have hvisit := h'.visit [] (fun y hy => absurd hy List.not_mem_nil) fun z hz =>
      absurd hz (not_step_of_none hn z)
    obtain ⟨hle, hsorted⟩ := ih k' now' later' hq' (by rwa [List.append_nil] at hvisit)
    rw [bfs, if_neg hx, hn]
    exact ⟨fun y hy => hk.trans (hle y hy), hsorted⟩
  | case5 n x queue visited hx succs hn ih =>
    intro k now later hq h
    obtain ⟨k', now', later', hk, hq', h'⟩ := h.head hq
    have hsome : (next x).isSome = true := by rw [hn]; rfl
    have hdist := h'.distance_head hx hsome
    have hvisit := h'.visit (succs.filter (· ∉ x :: visited))
      (fun y hy hy' => ⟨x, h'.walks x List.mem_cons_self hsome, succs, hn, List.mem_of_mem_filter hy, hy'⟩)
      fun z hz => found_of_step hn hz
    obtain ⟨hle, hsorted⟩ := ih k' now' _ (by rw [hq', List.append_assoc]) hvisit
    rw [bfs, if_neg hx, hn]
    refine ⟨fun y hy => ?_, List.pairwise_cons.2 ⟨fun y hy => hdist ▸ hle y hy, hsorted⟩⟩
    rcases List.mem_cons.1 hy with rfl | hy
    · exact hdist ▸ hk
    · exact hk.trans (hle y hy)

/-! ## Completeness -/

/-- A search that is not cut off has listed what was queued, and the
successors of everything it has seen. -/
theorem bfs_complete (n : Nat) (queue visited : List κ) :
    (bfs next n queue visited).length < n →
    Closed next visited queue →
    (∀ y ∈ queue, (next y).isSome = true → y ∈ visited ∨ y ∈ bfs next n queue visited) ∧
    ∀ y, y ∈ visited ∨ y ∈ bfs next n queue visited → ∀ z, Step next y z →
      z ∈ visited ∨ z ∈ bfs next n queue visited := by
  induction n, queue, visited using bfs.induct next with
  | case1 queue visited => intro hlt; exact absurd hlt (Nat.not_lt_zero _)
  | case2 n visited =>
    intro _ hclosed
    rw [bfs]
    refine ⟨fun y hy => absurd hy List.not_mem_nil, fun y hy z hz => ?_⟩
    exact hclosed y (hy.resolve_right List.not_mem_nil) z hz
  | case3 n x queue visited hx ih =>
    rw [bfs, if_pos hx]
    intro hlt hclosed
    obtain ⟨hqueue, hsucc⟩ := ih hlt (hclosed.skip hx)
    refine ⟨fun y hy hsome => ?_, hsucc⟩
    rcases List.mem_cons.1 hy with rfl | hy
    · exact .inl hx
    · exact hqueue y hy hsome
  | case4 n x queue visited hx hn ih =>
    rw [bfs, if_neg hx, hn]
    intro hlt hclosed
    have hgone : ∀ z, (next z).isSome = true → z ≠ x := by
      intro z hz he
      rw [he, hn] at hz
      cases hz
    have hdrop : ∀ {z : κ} {l : List κ}, (next z).isSome = true → z ∈ x :: visited ∨ z ∈ l → z ∈ visited ∨ z ∈ l :=
      fun hz h => h.imp_left fun hv => (List.mem_cons.1 hv).resolve_left (hgone _ hz)
    have hclosed' := hclosed.visit [] fun z hz => absurd hz (not_step_of_none hn z)
    rw [List.append_nil] at hclosed'
    obtain ⟨hqueue, hsucc⟩ := ih hlt hclosed'
    refine ⟨fun y hy hsome => ?_, fun y hy z hz => ?_⟩
    · rcases List.mem_cons.1 hy with rfl | hy
      · exact absurd rfl (hgone y hsome)
      · exact hdrop hsome (hqueue y hy hsome)
    · have hsome : (next z).isSome = true := hz.elim fun _ h => h.2.2
      exact hdrop hsome (hsucc y (hy.imp_left (List.mem_cons_of_mem _)) z hz)
  | case5 n x queue visited hx succs hn ih =>
    rw [bfs, if_neg hx, hn]
    dsimp only
    intro hlt hclosed
    have hmove : ∀ {z : κ} {l : List κ}, z ∈ x :: visited ∨ z ∈ l → z ∈ visited ∨ z ∈ x :: l := by
      intro z l h
      simp only [List.mem_cons] at h ⊢
      tauto
    have hclosed' := hclosed.visit _ fun z hz => found_of_step hn hz
    obtain ⟨hqueue, hsucc⟩ := ih (Nat.lt_of_succ_lt_succ hlt) hclosed'
    refine ⟨fun y hy hsome => ?_, fun y hy z hz => ?_⟩
    · rcases List.mem_cons.1 hy with rfl | hy
      · exact .inr List.mem_cons_self
      · exact hmove (hqueue y (List.mem_append_left _ hy) hsome)
    · refine hmove (hsucc y ?_ z hz)
      simp only [List.mem_cons] at hy ⊢
      tauto

end BreadthFirst
end Mdrj.Core
