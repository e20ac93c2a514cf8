import Mathlib.Data.List.Nodup
import Mdrj.Core.Backlog
import Mdrj.Core.Runs

/-!
# The event stream

Every subscriber of the event stream has a queue of its own, of 256 payloads
at most. A broadcast may come from a worker thread, so while the event loop
runs it only schedules one callback per subscriber, and the callbacks put the
payload in the queues; without a loop the payload goes in at once. A queue
that is full drops its oldest payload.

Result: `visualizer_stream`: whatever the interleaving of broadcasts,
callbacks, readers and subscriptions, what was broadcast to a subscriber is
what was offered to its queue and what is scheduled for it, in this order;
its reader gets a subsequence, and misses a payload only when 256 later ones
were offered before it read on.
-/
namespace Mdrj.L4.Visualizer
open Mdrj.Core

variable {P : Type}

/-- `asyncio.Queue.put_nowait`; `none` is `QueueFull`. -/
def putNowait (maxsize : ℕ) (queue : List P) (payload : P) : Option (List P) :=
  if 0 < maxsize ∧ maxsize ≤ queue.length then none else some (queue ++ [payload])

/-- `asyncio.Queue.get_nowait`; `none` is `QueueEmpty`. -/
def getNowait : List P → Option (P × List P)
  | [] => none
  | payload :: rest => some (payload, rest)

/-- mirrors mdrj/node.py:2432-2433 -/
def maxsize : ℕ := 256

/-- mirrors mdrj/node.py:2466-2478 -/
def enqueueViz (queue : List P) (payload : P) : List P :=
  match putNowait maxsize queue payload with
  | some queue => queue
  | none =>
    let queue := match getNowait queue with
      | some (_, rest) => rest
      | none => queue
    match putNowait maxsize queue payload with
    | some queue => queue
    | none => queue

/-- The queues are numbered in the order of the subscriptions. -/
structure Viz (P : Type) where
  loopRunning : Bool
  subscribers : List ℕ := []
  next : ℕ := 0
  queue : ℕ → List P := fun _ => []
  scheduled : List (ℕ × P) := []     -- the callbacks of the event loop, in order
  sent : ℕ → List P := fun _ => []   -- what was broadcast while subscribed
  taken : ℕ → List P := fun _ => []  -- what the reader got

inductive VizAct (P : Type) where
  | subscribe
  | unsubscribe (i : ℕ)
  | broadcast (payload : P) (order : List ℕ)
  | callback
  | read (i : ℕ)

namespace Viz

def enqueue (v : Viz P) (i : ℕ) (payload : P) : Viz P :=
  { v with queue := Function.update v.queue i (enqueueViz (v.queue i) payload) }

/-- The queues are visited in the iteration order of a set.
mirrors mdrj/node.py:2456-2464 -/
def broadcastViz (v : Viz P) (payload : P) (order : List ℕ) : Viz P :=
  let v := { v with sent := fun i => if i ∈ v.subscribers then v.sent i ++ [payload] else v.sent i }
  if v.loopRunning then { v with scheduled := v.scheduled ++ order.map fun i => (i, payload) }
  else order.foldl (fun v i => v.enqueue i payload) v

/-- mirrors mdrj/node.py:2432-2438, mdrj/api.py:7734-7735 -/
def step (v : Viz P) : VizAct P → Viz P
  | .subscribe => { v with subscribers := v.subscribers ++ [v.next], next := v.next + 1 }
  | .unsubscribe i => { v with subscribers := v.subscribers.filter (· ≠ i) }
  | .broadcast payload order => v.broadcastViz payload order
  | .callback =>
    match v.scheduled with
    | [] => v
    | (i, payload) :: rest => { v with scheduled := rest }.enqueue i payload
  | .read i =>
    match getNowait (v.queue i) with
    | none => v    -- the reader waits
    | some (payload, rest) =>
      { v with queue := Function.update v.queue i rest
               taken := Function.update v.taken i (v.taken i ++ [payload]) }

/-- The order of a broadcast is an order of the subscribers. -/
def Visits (v : Viz P) : VizAct P → Prop
  | .broadcast _ order => order.Perm v.subscribers
  | _ => True

instance (v : Viz P) : (a : VizAct P) → Decidable (v.Visits a)
  | .broadcast _ order => inferInstanceAs (Decidable (order.Perm v.subscribers))
  | .subscribe | .unsubscribe _ | .callback | .read _ => .isTrue trivial

/-- What is scheduled for a queue. -/
def pending (v : Viz P) (i : ℕ) : List P := (v.scheduled.filter fun callback => callback.1 = i).map Prod.snd

end Viz

/-! ## One queue -/

theorem enqueueViz_room {queue : List P} (h : queue.length < maxsize) (payload : P) :
    enqueueViz queue payload = queue ++ [payload] := by
  unfold enqueueViz putNowait
  rw [if_neg (by omega)]

theorem enqueueViz_full {queue : List P} (h : queue.length = maxsize) (payload : P) :
    enqueueViz queue payload = queue.tail ++ [payload] := by
  unfold enqueueViz putNowait
  rw [if_pos ⟨by decide, by omega⟩]
  cases queue with
  | nil => exact absurd h.symm (by decide : maxsize ≠ 0)
  | cons first rest =>
    rw [List.length_cons] at h
    dsimp only [getNowait]
    rw [if_neg (by omega)]
    rfl

theorem backlog_enqueueViz {offered taken queue : List P} (h : Backlog maxsize offered taken queue) (payload : P) :
    Backlog maxsize (offered ++ [payload]) taken (enqueueViz queue payload) := by
  rcases Nat.lt_or_ge queue.length maxsize with hroom | hfull
  · rw [enqueueViz_room hroom]
    exact h.push hroom
  · have hlength : queue.length = maxsize := Nat.le_antisymm h.short hfull
    rw [enqueueViz_full hlength]
    exact h.pushFull hlength (by decide)

/-! ## All queues -/

namespace Viz
variable {v : Viz P}

/-- What a subscriber was sent went through its queue or is scheduled. -/
def Streams (v : Viz P) (i : ℕ) : Prop :=
  ∃ offered, v.sent i = offered ++ v.pending i ∧ Backlog maxsize offered (v.taken i) (v.queue i)

/-- No subscriber is numbered twice, and the callbacks need the loop. -/
structure Inv (v : Viz P) : Prop where
  nodup : v.subscribers.Nodup
  older : ∀ i ∈ v.subscribers, i < v.next
  idle : v.loopRunning = false → v.scheduled = []
  streams : ∀ i, v.Streams i

theorem pending_append (v : Viz P) (order : List ℕ) (payload : P) (horder : order.Nodup) (i : ℕ) :
    ((v.scheduled ++ order.map fun j => (j, payload)).filter fun callback => callback.1 = i).map Prod.snd =
      v.pending i ++ if i ∈ order then [payload] else [] := by
  unfold pending
  rw [List.filter_append, List.map_append]
  congr 1
  induction order with
  | nil => rfl
  | cons j order ih =>
    obtain ⟨hnew, hrest⟩ := List.nodup_cons.1 horder
    rw [List.map_cons, List.filter_cons]
    by_cases hj : j = i
    · subst hj
      rw [if_pos (by simp), List.map_cons, ih hrest, if_neg hnew, if_pos List.mem_cons_self]
    · rw [if_neg (by simpa using hj), ih hrest]
      simp [List.mem_cons, Ne.symm hj]

/-- A broadcast without a loop, queue by queue. -/
theorem foldl_enqueue (payload : P) (order : List ℕ) : ∀ v : Viz P, order.Nodup →
    order.foldl (fun v i => v.enqueue i payload) v =
      { v with queue := fun i => if i ∈ order then enqueueViz (v.queue i) payload else v.queue i } := by
  induction order with
  | nil => intro v _; simp
  | cons j order ih =>
    intro v horder
    obtain ⟨hnew, hrest⟩ := List.nodup_cons.1 horder
    rw [List.foldl_cons, ih _ hrest]
    unfold enqueue
    congr 1
    funext i
    rcases eq_or_ne i j with rfl | hij
    · simp [hnew]
    · simp [hij]

theorem broadcastViz_streams (h : v.Inv) {order : List ℕ} (horder : order.Perm v.subscribers) (payload : P) (i : ℕ) :
    (v.broadcastViz payload order).Streams i := by
  have hnodup : order.Nodup := horder.nodup_iff.2 h.nodup
  obtain ⟨offered, hsent, hbacklog⟩ := h.streams i
  unfold broadcastViz
  dsimp only
  cases hloop : v.loopRunning with
  | true =>
    refine ⟨offered, ?_, hbacklog⟩
    simp only [if_true]
    unfold pending
    dsimp only
    rw [pending_append v order payload hnodup i]
    by_cases hi : i ∈ v.subscribers
    · rw [if_pos hi, if_pos (horder.mem_iff.2 hi), hsent, List.append_assoc]
    · rw [if_neg hi, if_neg (fun hmem => hi (horder.mem_iff.1 hmem)), hsent, List.append_nil]
  | false =>
    have hnone : v.pending i = [] := by simp [pending, h.idle hloop]
    rw [hnone, List.append_nil] at hsent
    simp only [Bool.false_eq_true, if_false]
    rw [foldl_enqueue payload order _ hnodup]
    unfold Streams pending
    dsimp only
    rw [h.idle hloop]
    by_cases hi : i ∈ v.subscribers
    · rw [if_pos hi, if_pos (horder.mem_iff.2 hi), hsent]
      exact ⟨offered ++ [payload], by simp, backlog_enqueueViz hbacklog payload⟩
    · rw [if_neg hi, if_neg (fun hmem => hi (horder.mem_iff.1 hmem)), hsent]
      exact ⟨offered, by simp, hbacklog⟩

theorem callback_streams {i : ℕ} {payload : P} {rest : List (ℕ × P)} (hscheduled : v.scheduled = (i, payload) :: rest)
    {j : ℕ} (h : v.Streams j) : ({ v with scheduled := rest }.enqueue i payload).Streams j := by
  obtain ⟨offered, hsent, hbacklog⟩ := h
  unfold pending at hsent
  rw [hscheduled, List.filter_cons] at hsent
  unfold Streams enqueue pending
  dsimp only
  by_cases hij : i = j
  · subst hij
    rw [if_pos (by simp), List.map_cons, List.append_cons] at hsent
    rw [Function.update_self]
    exact ⟨offered ++ [payload], hsent, backlog_enqueueViz hbacklog payload⟩
  · rw [if_neg (by simpa using hij)] at hsent
    rw [Function.update_of_ne (Ne.symm hij)]
    exact ⟨offered, hsent, hbacklog⟩

theorem step_inv (v : Viz P) (act : VizAct P) (h : v.Inv) (hok : v.Visits act) : (v.step act).Inv := by
  cases act with
  | subscribe =>
    have hnew : v.next ∉ v.subscribers := fun hmem => Nat.lt_irrefl _ (h.older _ hmem)
    refine ⟨?_, fun i hi => ?_, h.idle, h.streams⟩
    · refine List.nodup_append.2 ⟨h.nodup, List.nodup_singleton _, fun i hi j hj hij => ?_⟩
      rw [hij, List.mem_singleton.1 hj] at hi
      exact hnew hi
    · rcases List.mem_append.1 hi with hold | hlast
      · exact Nat.lt_succ_of_lt (h.older i hold)
      · rw [List.mem_singleton.1 hlast]
        exact Nat.lt_succ_self _
  | unsubscribe i =>
    exact ⟨h.nodup.filter _, fun j hj => h.older j (List.mem_filter.1 hj).1, h.idle, h.streams⟩
  | broadcast payload order =>
    have hstreams := broadcastViz_streams h hok payload
    have hnodup : order.Nodup := List.Perm.nodup_iff hok |>.2 h.nodup
    cases hloop : v.loopRunning with
    | true =>
      refine ⟨?_, ?_, ?_, hstreams⟩ <;> simp only [step, broadcastViz, hloop, if_true]
      · exact h.nodup
      · exact h.older
      · simp
    | false =>
      refine ⟨?_, ?_, ?_, hstreams⟩ <;>
        simp only [step, broadcastViz, hloop, Bool.false_eq_true, if_false, foldl_enqueue payload order _ hnodup]
      · exact h.nodup
      · exact h.older
      · exact fun _ => h.idle hloop
  | callback =>
    simp only [step]
    cases hscheduled : v.scheduled with
    | nil => exact h
    | cons callback rest =>
      obtain ⟨i, payload⟩ := callback
      refine ⟨h.nodup, h.older, fun hloop => ?_, fun j => callback_streams hscheduled (h.streams j)⟩
      have hidle := h.idle hloop
      rw [hscheduled] at hidle
      cases hidle
  | read i =>
    simp only [step]
    cases hqueue : v.queue i with
    | nil => exact h
    | cons payload rest =>
      refine ⟨h.nodup, h.older, h.idle, fun j => ?_⟩
      obtain ⟨offered, hsent, hbacklog⟩ := h.streams j
      refine ⟨offered, hsent, ?_⟩
      dsimp only [getNowait]
      rcases eq_or_ne j i with rfl | hj
      · rw [hqueue] at hbacklog
        simpa using hbacklog.pop
      · simpa [Function.update_of_ne hj] using hbacklog

end Viz

/-- **The event stream.** For every run of broadcasts, callbacks, readers and
subscriptions, from no subscribers: what a subscriber was sent was offered to
its queue or is scheduled for it, in order; the queue holds at most 256
payloads, the last ones offered; the reader got some of those before, in order
and none twice; each that it did not get was followed by at least 256 others;
and of 256 or fewer none is lost. -/
theorem visualizer_stream (loopRunning : Bool) (actions : List (VizAct P))
    (hvisits : Admits Viz.step Viz.Visits ({ loopRunning } : Viz P) actions) (i : ℕ) :
    let v := run Viz.step ({ loopRunning } : Viz P) actions
    ∃ offered, v.sent i = offered ++ v.pending i ∧
      (∃ (start : ℕ) (positions : List ℕ), v.queue i = offered.drop start ∧ (v.queue i).length ≤ 256 ∧
        positions.Pairwise (· < ·) ∧ (v.taken i).map some = positions.map (fun k => offered[k]?) ∧
        (∀ k ∈ positions, k < start) ∧ ∀ k < start, k ∈ positions ∨ k + 256 < offered.length) ∧
      (offered.length ≤ 256 → offered = v.taken i ++ v.queue i) := by
  have hstart : ({ loopRunning } : Viz P).Inv :=
    ⟨List.nodup_nil, fun i hi => absurd hi List.not_mem_nil, fun _ => rfl, fun i => ⟨[], rfl, Backlog.nil⟩⟩
  intro v
  obtain ⟨offered, hsent, hbacklog⟩ := (run_invariant Viz.step_inv hstart hvisits).streams i
  refine ⟨offered, hsent, ?_, hbacklog.complete⟩
  obtain ⟨start, positions, h⟩ := hbacklog
  exact ⟨start, positions, h.held, h.short, h.ordered, h.read, h.before, h.overrun⟩

section Overrun

/-- Two subscribers and 259 payloads; the first subscriber reads one of them. -/
def overrun : List (VizAct ℕ) :=
  [.subscribe, .subscribe, .broadcast 0 [1, 0], .callback, .callback, .read 0] ++
    (List.range' 1 258).flatMap fun payload => [.broadcast payload [1, 0], .callback, .callback]

theorem overrun_visits : Admits Viz.step Viz.Visits ({ loopRunning := true } : Viz ℕ) overrun := by
  decide +kernel

theorem overrun_sent : (run Viz.step ({ loopRunning := true } : Viz ℕ) overrun).sent 0 = List.range 259 := by
  decide +kernel

theorem overrun_pending : (run Viz.step ({ loopRunning := true } : Viz ℕ) overrun).pending 0 = [] := by
  decide +kernel

theorem overrun_taken : (run Viz.step ({ loopRunning := true } : Viz ℕ) overrun).taken 0 = [0] := by
  decide +kernel

/-- Two payloads are lost, and the queue holds the last 256. -/
theorem visualizer_stream_overrun :
    (run Viz.step ({ loopRunning := true } : Viz ℕ) overrun).queue 0 = (List.range 259).drop 3 := by
  obtain ⟨offered, hsent, ⟨start, positions, hheld, hshort, -, hread, -, hoverrun⟩, -⟩ :=
    visualizer_stream true overrun overrun_visits 0
  rw [overrun_sent, overrun_pending, List.append_nil] at hsent
  subst hsent
  rw [hheld, List.length_drop, List.length_range] at hshort
  rw [overrun_taken] at hread
  -- the one payload that was read is the first
  have hfirst : ∀ k ∈ positions, k = 0 := by
    intro k hk
    have hmem := List.mem_map_of_mem (f := fun k => (List.range 259)[k]?) hk
    rw [← hread] at hmem
    have hget : (List.range 259)[k]? = some 0 := List.mem_singleton.1 hmem
    obtain ⟨hlt, hvalue⟩ := List.getElem?_eq_some_iff.1 hget
    rw [List.getElem_range] at hvalue
    exact hvalue
  have hstart : start = 3 := by
    by_contra hne
    rcases hoverrun 3 (by omega) with hmem | hlate
    · exact absurd (hfirst 3 hmem) (by decide)
    · rw [List.length_range] at hlate
      omega
  rw [hheld, hstart]

end Overrun

end Mdrj.L4.Visualizer
