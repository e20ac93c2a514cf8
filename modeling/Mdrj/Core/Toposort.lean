import Mdrj.Core.Dag
import Mdrj.Core.Dict

/-!
# Kahn's algorithm

`toposort nodes edges` orders a list of nodes along edges `(parent, child)`
by repeatedly taking a node without parents left; edges to or from other
nodes are ignored. The bookkeeping is the usual one, in dictionaries: the
children of each node, the number of its parents that are still to come,
and a queue of the nodes that wait for none.

* `toposort_isSome_iff`: it succeeds exactly on acyclic edges.
* `toposort_some`, `toposort_idxOf_lt`: the result lists every node once, and
  parents before children.
* `order_fuel`: one turn for each node empties the queue.
-/
namespace Mdrj.Core
open Relation

namespace Kahn
variable {κ : Type} [DecidableEq κ]

/-- Children of each node, in edge order. -/
def graph (nodes : List κ) (edges : List (κ × κ)) : Dict κ (List κ) :=
  edges.foldl (fun g e =>
    if e.1 ∈ nodes ∧ e.2 ∈ nodes then Dict.set g e.1 ((Dict.get g e.1).getD [] ++ [e.2]) else g)
    (nodes.map fun n => (n, []))

def indegree (nodes : List κ) (edges : List (κ × κ)) : Dict κ Int :=
  edges.foldl (fun d e =>
    if e.1 ∈ nodes ∧ e.2 ∈ nodes then Dict.set d e.2 ((Dict.get d e.2).getD 0 + 1) else d)
    (nodes.map fun n => (n, 0))

/-- One child of the node just taken. -/
def visit (s : Dict κ Int × List κ) (child : κ) : Dict κ Int × List κ :=
  let deg := (Dict.get s.1 child).getD 0 - 1
  (Dict.set s.1 child deg, if deg = 0 then s.2 ++ [child] else s.2)

def run (g : Dict κ (List κ)) : Nat → Dict κ Int → List κ → List κ → List κ
  | 0, _, _, order => order
  | _ + 1, _, [], order => order
  | fuel + 1, deg, node :: queue, order =>
    let s := ((Dict.get g node).getD []).foldl visit (deg, queue)
    run g fuel s.1 s.2 (order ++ [node])

/-- `none` is the failure "cycle detected". -/
def toposort (nodes : List κ) (edges : List (κ × κ)) : Option (List κ) :=
  let deg := indegree nodes edges
  let queue := (deg.filter fun p => p.2 = 0).map Prod.fst
  let order := run (graph nodes edges) (nodes.length + 1) deg queue []
  if order.length = nodes.length then some order else none

/-! ## The tables -/

variable {nodes : List κ} {edges : List (κ × κ)}

/-- The edges between nodes. -/
def Edge (nodes : List κ) (edges : List (κ × κ)) (p c : κ) : Prop :=
  (p, c) ∈ edges ∧ p ∈ nodes ∧ c ∈ nodes

def children (nodes : List κ) (edges : List (κ × κ)) (p : κ) : List κ :=
  (edges.filter fun e => e.1 = p ∧ e.1 ∈ nodes ∧ e.2 ∈ nodes).map Prod.snd

/-- The number of edges into `c` from nodes not yet taken. -/
def pending (nodes : List κ) (edges : List (κ × κ)) (order : List κ) (c : κ) : Nat :=
  edges.countP fun e => e.2 = c ∧ e.1 ∈ nodes ∧ e.2 ∈ nodes ∧ e.1 ∉ order

theorem get_graph {p : κ} (hp : p ∈ nodes) :
    (Dict.get (graph nodes edges) p).getD [] = children nodes edges p := by
  suffices H : ∀ (g : Dict κ (List κ)), (Dict.get (edges.foldl (fun g e =>
      if e.1 ∈ nodes ∧ e.2 ∈ nodes then Dict.set g e.1 ((Dict.get g e.1).getD [] ++ [e.2]) else g)
      g) p).getD [] = (Dict.get g p).getD [] ++ children nodes edges p by
    rw [graph, H, Dict.get_map_key, if_pos hp]; rfl
  induction edges with
  | nil => intro g; simp [children]
  | cons e edges ih =>
    intro g
    rw [List.foldl_cons, ih]
    unfold children
    rw [List.filter_cons]
    by_cases hin : e.1 ∈ nodes ∧ e.2 ∈ nodes
    · rw [if_pos hin]
      by_cases he : e.1 = p
      · subst he
        simp [Dict.get_set_self, hin]
      · simp [Dict.get_set_ne _ _ he, he]
    · rw [if_neg hin]
      have hf : ¬ (e.1 = p ∧ e.1 ∈ nodes ∧ e.2 ∈ nodes) := fun h => hin h.2
      simp [hf]

theorem get_indegree {c : κ} (hc : c ∈ nodes) :
    Dict.get (indegree nodes edges) c = some (pending nodes edges [] c : Int) := by
  suffices H : ∀ (d : Dict κ Int) (k : Int), Dict.get d c = some k →
      Dict.get (edges.foldl (fun d e => if e.1 ∈ nodes ∧ e.2 ∈ nodes then
        Dict.set d e.2 ((Dict.get d e.2).getD 0 + 1) else d) d) c =
      some (k + (pending nodes edges [] c : Int)) by
    rw [indegree, H _ 0 (by rw [Dict.get_map_key, if_pos hc]), Int.zero_add]
  induction edges with
  | nil => intro d k hd; simpa [pending] using hd
  | cons e edges ih =>
    intro d k hd
    rw [List.foldl_cons]
    have hcons : pending nodes (e :: edges) [] c = pending nodes edges [] c +
        if e.2 = c ∧ e.1 ∈ nodes ∧ e.2 ∈ nodes then 1 else 0 := by
      unfold pending
      rw [List.countP_cons]
      simp
    rw [hcons]
    by_cases hin : e.1 ∈ nodes ∧ e.2 ∈ nodes
    · rw [if_pos hin]
      by_cases he : e.2 = c
      · subst he
        rw [ih _ (k + 1) (by rw [Dict.get_set_self, hd]; rfl), if_pos ⟨rfl, hin⟩]
        push_cast
        congr 1
        omega
      · rw [ih _ k (by rw [Dict.get_set_ne _ _ he, hd]), if_neg fun h => he h.1]
        rfl
    · rw [if_neg hin, ih _ k hd, if_neg fun h => hin h.2]
      rfl

theorem keys_indegree : Dict.keys (indegree nodes edges) = nodes := by
  suffices H : ∀ d : Dict κ Int, Dict.keys d = nodes →
      Dict.keys (edges.foldl (fun d e => if e.1 ∈ nodes ∧ e.2 ∈ nodes then
        Dict.set d e.2 ((Dict.get d e.2).getD 0 + 1) else d) d) = nodes by
    refine H _ ?_
    simp [Dict.keys, Function.comp_def]
  induction edges with
  | nil => exact fun d hd => hd
  | cons e edges ih =>
    intro d hd
    rw [List.foldl_cons]
    refine ih _ ?_
    split
    · rename_i hin
      rw [Dict.keys_set, hd, if_pos hin.2]
    · exact hd

/-! ## The loop -/

/-- `order` is taken, `queue` waits for nothing, and the degrees count the
edges still to come, with those to `rest` counted once more: the children of
the last node taken that are not visited yet. -/
structure Inv (nodes : List κ) (edges : List (κ × κ)) (order rest : List κ) (deg : Dict κ Int)
    (queue : List κ) : Prop where
  nodup : (order ++ queue).Nodup
  sub : ∀ c ∈ order ++ queue, c ∈ nodes
  deg : ∀ c ∈ nodes, Dict.get deg c = some ((pending nodes edges order c + rest.count c : Nat) : Int)
  ready : ∀ c ∈ nodes, c ∈ order ++ queue ↔ pending nodes edges order c + rest.count c = 0
  parents : ∀ pre c post, order = pre ++ c :: post → ∀ p, Edge nodes edges p c → p ∈ pre

theorem pending_take {order : List κ} {node : κ} (hn : node ∈ nodes) (hno : node ∉ order) (c : κ) :
    pending nodes edges order c =
      pending nodes edges (order ++ [node]) c + (children nodes edges node).count c := by
  unfold pending children
  induction edges with
  | nil => simp
  | cons e edges ih =>
    rw [List.countP_cons, List.countP_cons, ih, List.filter_cons]
    by_cases he : e.1 = node
    · subst he
      by_cases hc : e.2 ∈ nodes
      · by_cases hec : e.2 = c
        · subst hec; simp [hn, hc, hno]; omega
        · simp [hn, hc, hec]
      · simp [hc]
    · by_cases hc : e.1 ∈ order
      · simp [he, hc]
      · simp [he, hc]; omega

theorem pending_eq_zero {order : List κ} {c : κ} (hc : c ∈ nodes) :
    pending nodes edges order c = 0 ↔ ∀ p, Edge nodes edges p c → p ∈ order := by
  unfold pending
  rw [List.countP_eq_zero]
  constructor
  · rintro h p ⟨he, hp, -⟩
    by_contra hno
    exact h (p, c) he (by simp [hp, hc, hno])
  · intro h e he hcond
    simp only [decide_eq_true_eq] at hcond
    obtain ⟨rfl, hp, -, hno⟩ := hcond
    exact hno (h e.1 ⟨he, hp, hc⟩)

theorem Inv.visit {order rest : List κ} {deg : Dict κ Int} {queue : List κ} {child : κ}
    (h : Inv nodes edges order (child :: rest) deg queue) (hc : child ∈ nodes) :
    Inv nodes edges order rest (visit (deg, queue) child).1 (visit (deg, queue) child).2 := by
  have hdeg := h.deg child hc
  have hnew : (Dict.get deg child).getD 0 - 1 =
      ((pending nodes edges order child + rest.count child : Nat) : Int) := by
    rw [hdeg, Option.getD_some, List.count_cons_self]; push_cast; omega
  have hout : child ∉ order ++ queue := by
    intro hm
    have := (h.ready child hc).1 hm
    rw [List.count_cons_self] at this; omega
  have hother : ∀ c, c ≠ child → (child :: rest).count c = rest.count c := fun c hne =>
    List.count_cons_of_ne fun e => hne e.symm
  have hzero : ((pending nodes edges order child + rest.count child : Nat) : Int) = 0 ↔
      pending nodes edges order child + rest.count child = 0 := by omega
  unfold Kahn.visit
  simp only [hnew]
  refine ⟨?_, ?_, ?_, ?_, h.parents⟩
  · split
    · rw [← List.append_assoc, ← List.concat_eq_append]
      exact (List.nodup_concat _ _).2 ⟨hout, h.nodup⟩
    · exact h.nodup
  · split
    · intro c hcm
      rw [← List.append_assoc, List.mem_append, List.mem_singleton] at hcm
      rcases hcm with hcm | rfl
      · exact h.sub c hcm
      · exact hc
    · exact h.sub
  · intro c hcn
    by_cases hce : c = child
    · subst hce; rw [Dict.get_set_self]
    · rw [Dict.get_set_ne _ _ fun e => hce e.symm, h.deg c hcn, hother c hce]
  · intro c hcn
    by_cases hce : c = child
    · subst hce
      split
      · rename_i hz
        rw [← List.append_assoc, List.mem_append]
        exact ⟨fun _ => hzero.1 hz, fun _ => .inr (List.mem_singleton_self _)⟩
      · rename_i hz
        exact ⟨fun hm => absurd hm hout, fun hp => absurd (hzero.2 hp) hz⟩
    · have hr := h.ready c hcn
      rw [hother c hce] at hr
      split
      · rw [← List.append_assoc, List.mem_append, List.mem_singleton, ← hr]
        exact ⟨fun hm => hm.resolve_right hce, .inl⟩
      · exact hr

theorem Inv.visitAll {order : List κ} : ∀ {rest : List κ} {deg : Dict κ Int} {queue : List κ},
    (∀ c ∈ rest, c ∈ nodes) → Inv nodes edges order rest deg queue →
    Inv nodes edges order [] (rest.foldl Kahn.visit (deg, queue)).1
      (rest.foldl Kahn.visit (deg, queue)).2 := by
  intro rest
  induction rest with
  | nil => exact fun _ h => h
  | cons child rest ih =>
    intro deg queue hsub h
    have hv := h.visit (hsub child List.mem_cons_self)
    rw [List.foldl_cons]
    exact ih (fun c hc => hsub c (List.mem_cons_of_mem _ hc)) hv

theorem mem_children {p c : κ} : c ∈ children nodes edges p ↔ Edge nodes edges p c := by
  unfold children Edge
  simp only [List.mem_map, List.mem_filter, decide_eq_true_eq, Prod.exists]
  constructor
  · rintro ⟨a, b, ⟨he, rfl, hp, hc⟩, rfl⟩; exact ⟨he, hp, hc⟩
  · rintro ⟨he, hp, hc⟩; exact ⟨p, c, ⟨he, rfl, hp, hc⟩, rfl⟩

/-- Taking the head of the queue. -/
theorem Inv.take {order queue : List κ} {deg : Dict κ Int} {node : κ}
    (h : Inv nodes edges order [] deg (node :: queue)) :
    Inv nodes edges (order ++ [node]) (children nodes edges node) deg queue := by
  have hn : node ∈ nodes := h.sub node (by simp)
  have hno : node ∉ order := by
    have := h.nodup
    rw [List.nodup_append] at this
    exact fun hm => this.2.2 node hm node List.mem_cons_self rfl
  have happ : order ++ [node] ++ queue = order ++ node :: queue := by simp
  refine ⟨by rw [happ]; exact h.nodup, by rw [happ]; exact h.sub, fun c hc => ?_, fun c hc => ?_, ?_⟩
  · rw [h.deg c hc, pending_take hn hno c]; simp
  · rw [happ, h.ready c hc, pending_take hn hno c]; simp
  · intro pre c post hsplit p hp
    rcases List.append_eq_append_iff.1 hsplit with ⟨a, ha, hb⟩ | ⟨a, ha, hb⟩
    · -- the node just taken: everything before it is taken
      cases a with
      | nil =>
        simp only [List.nil_append, List.cons.injEq] at hb
        obtain ⟨rfl, -⟩ := hb
        rw [List.append_nil] at ha
        have hz : pending nodes edges order node = 0 := by
          have := (h.ready node hn).1 (by simp)
          simpa using this
        rw [ha]
        exact (pending_eq_zero hn).1 hz p hp
      | cons x a =>
        simp at hb
    · cases a with
      | nil =>
        simp only [List.nil_append, List.append_nil] at ha hb
        simp only [List.cons.injEq] at hb
        obtain ⟨rfl, -⟩ := hb
        have hz : pending nodes edges order c = 0 := by
          have := (h.ready c hn).1 (by simp)
          simpa using this
        rw [← ha]
        exact (pending_eq_zero hn).1 hz p hp
      | cons x a =>
        simp only [List.cons_append, List.cons.injEq] at hb
        obtain ⟨rfl, -⟩ := hb
        exact h.parents pre c a ha p hp

theorem run_inv : ∀ (fuel : Nat) {order queue : List κ} {deg : Dict κ Int},
    Inv nodes edges order [] deg queue → nodes.length < fuel + order.length →
    (∃ deg', Inv nodes edges (run (graph nodes edges) fuel deg queue order) [] deg' []) ∧
      ∀ k, run (graph nodes edges) (fuel + k) deg queue order = run (graph nodes edges) fuel deg queue order := by
  intro fuel
  induction fuel with
  | zero =>
    intro order queue deg h hlen
    -- more nodes taken than there are
    have hsub : order.length ≤ nodes.length :=
      List.Subperm.length_le ((h.nodup.of_append_left).subperm fun c hc =>
        h.sub c (List.mem_append_left _ hc))
    omega
  | succ fuel ih =>
    intro order queue deg h hlen
    cases queue with
    | nil => exact ⟨⟨deg, h⟩, fun k => by rw [Nat.succ_add]; rfl⟩
    | cons node queue =>
      have ht := h.take
      have hall := ht.visitAll fun c hc => (mem_children.1 hc).2.2
      rw [← get_graph (h.sub node (by simp))] at hall
      obtain ⟨hinv, hfuel⟩ := ih hall (by simp only [List.length_append, List.length_singleton]; omega)
      refine ⟨hinv, fun k => ?_⟩
      rw [Nat.succ_add]
      exact hfuel k

theorem inv_start (edges : List (κ × κ)) (hn : nodes.Nodup) : Inv nodes edges [] [] (indegree nodes edges)
    (((indegree nodes edges).filter fun p => p.2 = 0).map Prod.fst) := by
  have hkeys : Dict.keys (indegree nodes edges) = nodes := keys_indegree
  have hnd : (Dict.keys (indegree nodes edges)).Nodup := hkeys.symm ▸ hn
  have hmem : ∀ c, c ∈ ((indegree nodes edges).filter fun p => p.2 = 0).map Prod.fst ↔
      c ∈ nodes ∧ pending nodes edges [] c = 0 := by
    intro c
    rw [List.mem_map]
    constructor
    · rintro ⟨⟨c, v⟩, hp, rfl⟩
      obtain ⟨hv, hz⟩ := List.mem_filter.1 hp
      obtain rfl : v = 0 := by simpa using hz
      have hc : c ∈ nodes := hkeys ▸ List.mem_map_of_mem (f := Prod.fst) hv
      have := (Dict.get_of_mem hnd hv).symm.trans (get_indegree hc)
      exact ⟨hc, by simpa using this.symm⟩
    · rintro ⟨hc, hz⟩
      have hg : Dict.get (indegree nodes edges) c = _ := get_indegree hc
      rw [hz] at hg
      exact ⟨(c, 0), List.mem_filter.2 ⟨Dict.mem_of_get hg, by simp⟩, rfl⟩
  refine ⟨?_, fun c hc => ((hmem c).1 (by simpa using hc)).1, fun c hc => ?_, fun c hc => ?_, ?_⟩
  · rw [List.nil_append]
    exact hnd.sublist (List.filter_sublist.map _)
  · rw [get_indegree hc]; simp
  · rw [List.nil_append, hmem]; simp [hc]
  · intro pre c post hsplit; simp at hsplit

/-! ## The result -/

theorem toposort_inv (edges : List (κ × κ)) (hn : nodes.Nodup) : ∃ order deg,
    Inv nodes edges order [] deg [] ∧
    toposort nodes edges = if order.length = nodes.length then some order else none := by
  obtain ⟨⟨deg, h⟩, -⟩ := run_inv (nodes.length + 1) (inv_start edges hn) (by simp)
  exact ⟨_, deg, h, rfl⟩

/-- The loop from its start, for a number of turns. -/
def order (nodes : List κ) (edges : List (κ × κ)) (fuel : Nat) : List κ :=
  run (graph nodes edges) fuel (indegree nodes edges)
    (((indegree nodes edges).filter fun p => p.2 = 0).map Prod.fst) []

/-- The queue is empty after one turn for each node. -/
theorem order_fuel (edges : List (κ × κ)) (hn : nodes.Nodup) {fuel : Nat} (hf : nodes.length < fuel) :
    order nodes edges fuel = order nodes edges (nodes.length + 1) := by
  obtain ⟨k, rfl⟩ := Nat.exists_eq_add_of_le (Nat.succ_le_of_lt hf)
  exact (run_inv (nodes.length + 1) (inv_start edges hn) (by simp)).2 k

theorem toposort_some (hn : nodes.Nodup) {order : List κ} (h : toposort nodes edges = some order) :
    order.Perm nodes ∧
      ∀ pre c post, order = pre ++ c :: post → ∀ p, Edge nodes edges p c → p ∈ pre := by
  obtain ⟨order', deg, hinv, heq⟩ := toposort_inv edges hn
  rw [heq] at h
  split at h
  · rename_i hlen
    obtain rfl := Option.some.inj h
    have hnd : order'.Nodup := by simpa using hinv.nodup
    have hsub : order' ⊆ nodes := fun c hc => hinv.sub c (List.mem_append_left _ hc)
    exact ⟨(hnd.subperm hsub).perm_of_length_le hlen.ge, hinv.parents⟩
  · cases h

/-- A parent stands before its child in the result. -/
theorem toposort_idxOf_lt (hn : nodes.Nodup) {order : List κ}
    (h : toposort nodes edges = some order) {p c : κ} (he : Edge nodes edges p c) :
    order.idxOf p < order.idxOf c := by
  obtain ⟨hperm, hpar⟩ := toposort_some hn h
  obtain ⟨pre, post, hsplit⟩ := List.append_of_mem (hperm.mem_iff.2 he.2.2)
  have hp := hpar pre c post hsplit p he
  have hnd : order.Nodup := hperm.nodup_iff.2 hn
  rw [hsplit] at hnd ⊢
  have hc : c ∉ pre := by
    rw [List.nodup_append] at hnd
    exact fun hm => hnd.2.2 c hm c List.mem_cons_self rfl
  rw [List.idxOf_append_of_mem hp, List.idxOf_append_of_notMem hc]
  have := List.idxOf_lt_length_of_mem hp
  omega

/-- **Kahn's algorithm succeeds exactly on acyclic edges.** -/
theorem toposort_isSome_iff (hn : nodes.Nodup) :
    (toposort nodes edges).isSome ↔ ∀ x, ¬ TransGen (Edge nodes edges) x x := by
  constructor
  · intro hsome x hx
    obtain ⟨order, horder⟩ := Option.isSome_iff_exists.1 hsome
    have hlt : ∀ {a b}, TransGen (Edge nodes edges) a b → order.idxOf a < order.idxOf b := by
      intro a b hab
      induction hab with
      | single he => exact toposort_idxOf_lt hn horder he
      | tail _ he ih => exact ih.trans (toposort_idxOf_lt hn horder he)
    exact Nat.lt_irrefl _ (hlt hx)
  · intro hacyc
    obtain ⟨order, deg, hinv, heq⟩ := toposort_inv edges hn
    rw [heq, if_pos]
    · rfl
    have hnd : order.Nodup := by simpa using hinv.nodup
    have hsub : order ⊆ nodes := fun c hc => hinv.sub c (List.mem_append_left _ hc)
    -- a node left over has a parent left over, and so on
    have hsup : nodes ⊆ order := by
      intro c hc
      by_contra hno
      have hleft : c ∈ nodes.filter (· ∉ order) := by simp [hc, hno]
      obtain ⟨d, hd, hmin⟩ := exists_minimal hacyc hleft
      simp only [List.mem_filter, decide_eq_true_eq] at hd hmin
      have hdeg := hinv.ready d hd.1
      simp only [List.append_nil, List.count_nil, Nat.add_zero] at hdeg
      rw [pending_eq_zero hd.1] at hdeg
      refine hd.2 (hdeg.2 fun p hp => ?_)
      by_contra hpo
      exact hmin p ⟨hp.2.1, hpo⟩ hp
    exact Nat.le_antisymm (hnd.subperm hsub).length_le (hn.subperm hsup).length_le

end Kahn
end Mdrj.Core
