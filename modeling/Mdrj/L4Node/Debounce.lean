import Mdrj.Core.Runs

/-!
# The debounced recompute

With `runtime.recompute_debounce_sec` above zero a request for a recompute
sets a flag and starts a task unless one is in flight. The task sleeps,
clears the flag, and hands one recompute to a worker thread. Batches of
events are ingested on worker threads too, so their writes and requests come
between any two steps of the task.

A request that comes while the recompute runs sets the flag, but the task
ends without looking at it again: a write the recompute has missed waits for
the next request (`inflight_request_lost`). The runs in which every requested
write is attended to throughout are those without such a request
(`no_lost_request_iff`).

Left out: cancellation, which only `stop` does. A recompute that raises ends
like one that returns, in `except Exception`.
-/
namespace Mdrj.L4.Debounce
open Mdrj.Core

/-- Where the task `_recompute_debounce_task` is. -/
inductive Phase where
  | idle                  -- `None` or `done()`
  | sleeping
  | woken                 -- the sleep is over, the flag not yet tested
  | handed                -- the flag is cleared, the recompute given to a worker thread
  | running (start : Nat) -- the recompute runs; `start` writes came before it
  | returned              -- the recompute is over, the task not yet resumed
  deriving DecidableEq

/-- A write to the store: the call that made it, and whether this call has
since requested a recompute. -/
structure Write where
  caller : Nat
  requested : Bool
  deriving DecidableEq

structure State where
  writes : List Write := []   -- in the order of their completion
  dirty : Bool := false
  phase : Phase := .idle
  seen : Nat := 0             -- how many writes the last finished recompute has read

inductive Action where
  | write (caller : Nat)
  | request (caller : Nat)
  | wake
  | test
  | start
  | finish (read : Nat)
  | complete

def markRequested (caller : Nat) (w : Write) : Write :=
  if w.caller = caller then { w with requested := true } else w

/-- mirrors mdrj/node.py:775-785 -/
def requestRecompute (s : State) (caller : Nat) : State :=
  { s with
    writes := s.writes.map (markRequested caller)
    dirty := true
    phase := match s.phase with
      | .idle => .sleeping
      | phase => phase }

/-- A step that the task cannot take now changes nothing.
mirrors mdrj/node.py:787-803 -/
def step (s : State) : Action → State
  | .write caller => { s with writes := s.writes ++ [⟨caller, false⟩] }
  | .request caller => requestRecompute s caller
  | .wake => match s.phase with
    | .sleeping => { s with phase := .woken }
    | _ => s
  | .test => match s.phase with
    | .woken => if s.dirty then { s with dirty := false, phase := .handed } else { s with phase := .idle }
    | _ => s
  | .start => match s.phase with
    | .handed => { s with phase := .running s.writes.length }
    | _ => s
  -- the events are read at some moment of the run: all writes before its
  -- start, and those made until then
  | .finish read => match s.phase with
    | .running start => { s with phase := .returned, seen := max start (min read s.writes.length) }
    | _ => s
  | .complete => match s.phase with
    | .returned => { s with phase := .idle }
    | _ => s

/-! ## Attended writes -/

/-- A recompute that starts after the `i`-th write is under way, or a task
that has not tested the flag is scheduled. -/
def Attended (s : State) (i : Nat) : Prop :=
  match s.phase with
  | .sleeping | .woken | .handed => True
  | .running start => i < start
  | .idle | .returned => False

/-- Every requested write is visible to the last finished recompute or
attended to. -/
def NoLostRequest (s : State) : Prop :=
  ∀ i w, s.writes[i]? = some w → w.requested = true → i < s.seen ∨ Attended s i

/-- The writes that a request of this moment can still count on: the task is
before its recompute, or the recompute has read them. -/
def InTime (s : State) (i : Nat) : Prop :=
  match s.phase with
  | .idle | .sleeping | .woken | .handed => True
  | .running start => i < start
  | .returned => i < s.seen

/-- A request is made in time for every write of its call. -/
def Timely (s : State) : Action → Prop
  | .request caller => ∀ i w, s.writes[i]? = some w → w.caller = caller → InTime s i
  | _ => True

structure Inv (s : State) : Prop where
  noLost : NoLostRequest s
  dirty : s.phase = .sleeping ∨ s.phase = .woken → s.dirty = true
  seen : s.seen ≤ s.writes.length
  start : ∀ start, s.phase = .running start → s.seen ≤ start ∧ start ≤ s.writes.length

theorem Inv.initial : Inv {} where
  noLost i w hw := by simp at hw
  dirty h := by rcases h with h | h <;> cases h
  seen := Nat.le_refl _
  start _ h := by cases h

section Steps
variable {s : State}

theorem Inv.write (h : Inv s) (caller : Nat) : Inv (step s (.write caller)) := by
  refine ⟨fun i w hw hreq => ?_, h.dirty, ?_, fun start hp => ?_⟩
  · -- the new write has not been requested
    simp only [step, List.getElem?_append] at hw
    split at hw
    · exact h.noLost i w hw hreq
    · rw [List.getElem?_singleton] at hw
      split at hw
      · obtain rfl := Option.some.inj hw
        cases hreq
      · cases hw
  · have := h.seen
    simp only [step, List.length_append, List.length_singleton]
    omega
  · have := h.start start hp
    simp only [step, List.length_append, List.length_singleton]
    omega

/-- A write marked by a request was requested before or is of its call. -/
theorem getElem?_requestRecompute {caller i : Nat} {w : Write}
    (h : (requestRecompute s caller).writes[i]? = some w) (hreq : w.requested = true) :
    ∃ w', s.writes[i]? = some w' ∧ (w'.requested = true ∨ w'.caller = caller) := by
  simp only [requestRecompute, List.getElem?_map, Option.map_eq_some_iff] at h
  obtain ⟨w', hw', rfl⟩ := h
  refine ⟨w', hw', ?_⟩
  unfold markRequested at hreq
  split at hreq
  · exact .inr ‹_›
  · exact .inl hreq

theorem attended_request {caller i : Nat} (h : Attended s i) :
    Attended (requestRecompute s caller) i := by
  unfold Attended requestRecompute at *
  cases hp : s.phase <;> simp_all

theorem inTime_request {caller i : Nat} (h : InTime s i) :
    i < (requestRecompute s caller).seen ∨ Attended (requestRecompute s caller) i := by
  unfold InTime at h
  unfold Attended requestRecompute
  cases hp : s.phase <;> simp_all

theorem Inv.request (h : Inv s) {caller : Nat} (hok : Timely s (.request caller)) :
    Inv (step s (.request caller)) := by
  refine ⟨fun i w hw hreq => ?_, fun _ => rfl, ?_, fun start hp => ?_⟩
  · obtain ⟨w', hw', hcase⟩ := getElem?_requestRecompute hw hreq
    rcases hcase with hreq' | hcaller
    · rcases h.noLost i w' hw' hreq' with hseen | hatt
      · exact .inl hseen
      · exact .inr (attended_request hatt)
    · exact inTime_request (hok i w' hw' hcaller)
  · simpa [step, requestRecompute] using h.seen
  · have hrun : s.phase = .running start := by
      simp only [step, requestRecompute] at hp
      cases hphase : s.phase <;> simp_all
    simpa [step, requestRecompute] using h.start start hrun

/-- The steps of the task keep the invariant; one case per phase. -/
theorem Inv.task (h : Inv s) {a : Action} (ha : ∀ c, a ≠ .write c ∧ a ≠ .request c) : Inv (step s a) := by
  obtain ⟨hlost, hdirty, hseen, hstart⟩ := h
  unfold NoLostRequest Attended at hlost
  cases a with
  | write c => exact absurd rfl (ha c).1
  | request c => exact absurd rfl (ha c).2
  | wake =>
    cases hp : s.phase <;> simp only [step, hp]
    case sleeping =>
      exact ⟨fun _ _ _ _ => .inr trivial, fun _ => hdirty (.inl hp), hseen, nofun⟩
    all_goals exact ⟨hlost, hdirty, hseen, hstart⟩
  | test =>
    cases hp : s.phase <;> simp only [step, hp]
    case woken =>
      rw [if_pos (hdirty (.inr hp))]
      exact ⟨fun _ _ _ _ => .inr trivial, fun hc => hc.elim nofun nofun, hseen,
        nofun⟩
    all_goals exact ⟨hlost, hdirty, hseen, hstart⟩
  | start =>
    cases hp : s.phase <;> simp only [step, hp]
    case handed =>
      refine ⟨fun i w hw _ => .inr ?_, fun hc => hc.elim nofun nofun, hseen, ?_⟩
      · exact (List.getElem?_eq_some_iff.1 hw).1
      · rintro _ ⟨⟩
        exact ⟨hseen, Nat.le_refl _⟩
    all_goals exact ⟨hlost, hdirty, hseen, hstart⟩
  | finish read =>
    cases hp : s.phase <;> simp only [step, hp]
    case running start =>
      obtain ⟨h1, h2⟩ := hstart start hp
      refine ⟨fun i w hw hreq => .inl ?_, fun hc => hc.elim nofun nofun, ?_,
        nofun⟩
      · have := hlost i w hw hreq
        rw [hp] at this
        show i < max start _
        omega
      · show max start (min read s.writes.length) ≤ s.writes.length
        omega
    all_goals exact ⟨hlost, hdirty, hseen, hstart⟩
  | complete =>
    cases hp : s.phase <;> simp only [step, hp]
    case returned =>
      refine ⟨fun i w hw hreq => .inl ?_, fun hc => hc.elim nofun nofun, hseen,
        nofun⟩
      have := hlost i w hw hreq
      rw [hp] at this
      exact this.resolve_right id
    all_goals exact ⟨hlost, hdirty, hseen, hstart⟩

theorem inv_step (s : State) (a : Action) (h : Inv s) (hok : Timely s a) : Inv (step s a) := by
  cases a with
  | write caller => exact h.write caller
  | request caller => exact h.request hok
  | _ => exact h.task fun c => ⟨nofun, nofun⟩

/-- A request that is not in time leaves its write unattended at once. -/
theorem late_request (s : State) (a : Action) (hinv : Inv s) (hlate : ¬ Timely s a) :
    ¬ NoLostRequest (step s a) := by
  cases a with
  | request caller =>
    simp only [Timely, not_forall] at hlate
    obtain ⟨i, w, hw, hcaller, hlate⟩ := hlate
    intro h
    have hw' : (step s (.request caller)).writes[i]? = some { w with requested := true } := by
      simp [step, requestRecompute, markRequested, hw, hcaller]
    refine hlate ?_
    have hcase := h i _ hw' rfl
    unfold Attended at hcase
    unfold InTime
    simp only [step, requestRecompute] at hcase
    cases hp : s.phase with
    | running start =>
      have := (hinv.start start hp).1
      simp only [hp] at hcase
      show i < start
      omega
    | returned => simpa [hp] using hcase
    | _ => trivial
  | _ => exact absurd trivial hlate

end Steps

/-- **No lost request.** Every requested write is attended to in every state
of a run exactly when every request of the run is in time: none is made
while a recompute that has missed a write of its call is in flight. -/
theorem no_lost_request_iff (actions : List Action) :
    (∀ pre, pre <+: actions → NoLostRequest (run step {} pre)) ↔ Admits step Timely {} actions :=
  (admits_iff (fun _ h => h.noLost) inv_step late_request Inv.initial).symm

/-- The second call writes and requests while the recompute for the first
one runs. -/
def inflight : List Action :=
  [.write 0, .request 0, .wake, .test, .start, .write 1, .request 1, .finish 1, .complete]

/-- The flag stays set, nothing is scheduled, and the second write has not
been read. -/
theorem inflight_request_lost : ∃ actions : List Action,
    (run step {} actions).phase = .idle ∧ (run step {} actions).dirty = true ∧
    ¬ NoLostRequest (run step {} actions) := by
  refine ⟨inflight, rfl, rfl, fun h => ?_⟩
  have hlost := h 1 ⟨1, true⟩ rfl rfl
  rcases hlost with hseen | hatt
  · exact absurd hseen (by decide)
  · exact hatt

end Mdrj.L4.Debounce
