import Mathlib.Algebra.BigOperators.Fin
import Mathlib.Logic.Relation
import Mdrj.Core.Runs

/-!
# Flooding

A node that carries out a request sends it to all its peers; a node that has
carried it out before drops what arrives. What is still missing then lies
ahead of some message: as long as no message is lost, each peer of a node
that is done is itself done or has the request on its way (`Covered`), and
when nothing is on its way the nodes that are done are closed under the peer
relation (`Covered.reach`).

The traffic is a matter of accounts (`run_account`): along a run, what is
taken out and what is left make up what was put in, or stay below it.
-/
namespace Mdrj.Core.Flood
variable {ι : Type} {peers : ι → List ι} {done done' : ι → Prop} {inFlight inFlight' : List ι}

/-- A peer of a node that is done is done, or the request is on its way. -/
def Covered (peers : ι → List ι) (done : ι → Prop) (inFlight : List ι) : Prop :=
  ∀ i, done i → ∀ j ∈ peers i, done j ∨ j ∈ inFlight

theorem covered_start (hnone : ∀ i, ¬ done i) : Covered peers done inFlight :=
  fun i hi => absurd hi (hnone i)

/-- A node carries out the request, and sends it to its peers. -/
theorem Covered.accept (h : Covered peers done inFlight) {i : ι} (hdone : ∀ j, done' j ↔ j = i ∨ done j)
    (hkept : ∀ j ∈ inFlight, j = i ∨ j ∈ inFlight') (hsent : ∀ j ∈ peers i, j ∈ inFlight') :
    Covered peers done' inFlight' := by
  intro k hk j hj
  rcases (hdone k).1 hk with rfl | hk
  · exact .inr (hsent j hj)
  · rcases h k hk j hj with hold | hflight
    · exact .inl ((hdone j).2 (.inr hold))
    · rcases hkept j hflight with rfl | hflight
      · exact .inl ((hdone j).2 (.inl rfl))
      · exact .inr hflight

/-- A node that is done drops the request. -/
theorem Covered.drop (h : Covered peers done inFlight) {i : ι} (hi : done i)
    (hkept : ∀ j ∈ inFlight, j = i ∨ j ∈ inFlight') : Covered peers done inFlight' := by
  intro k hk j hj
  rcases h k hk j hj with hold | hflight
  · exact .inl hold
  · rcases hkept j hflight with rfl | hflight
    · exact .inl hi
    · exact .inr hflight

/-- With nothing on its way, whoever is within reach is done. -/
theorem Covered.reach (h : Covered peers done inFlight) {i j : ι} (hi : done i)
    (hreach : Relation.ReflTransGen (fun a b => b ∈ peers a) i j) (hquiet : ∀ k, k ∉ inFlight) : done j := by
  induction hreach with
  | refl => exact hi
  | tail _ hstep ih => exact (h _ ih _ hstep).resolve_right (hquiet _)

/-! ## Accounts -/

variable {σ α : Type} {step : σ → α → σ} {ok : σ → α → Prop}

/-- What the steps of a run weigh. -/
def tally (step : σ → α → σ) (weight : σ → α → ℕ) : σ → List α → ℕ
  | _, [] => 0
  | s, a :: actions => weight s a + tally step weight (step s a) actions

/-- A step takes `weight` from the stock, and adds to it as much as to the sum
of all additions, or less of it. -/
theorem run_account (r : ℕ → ℕ → Prop) (hrefl : ∀ x, r x x) (htrans : ∀ {x y z}, r x y → r y z → r x z)
    (hadd : ∀ {x y} k, r (x + k) (y + k) ↔ r x y) (weight : σ → α → ℕ) (stock added : σ → ℕ)
    (hstep : ∀ s a, ok s a → r (stock (step s a) + weight s a + added s) (stock s + added (step s a))) :
    ∀ {actions s}, Admits step ok s actions →
      r (stock (run step s actions) + tally step weight s actions + added s)
        (stock s + added (run step s actions)) := by
  intro actions
  induction actions with
  | nil => intro s _; exact hrefl _
  | cons a actions ih =>
    intro s hok
    have hfirst := hstep s a hok.1
    have hrest := ih hok.2
    rw [show run step s (a :: actions) = run step (step s a) actions from rfl, tally]
    generalize run step (step s a) actions = last at hrest ⊢
    -- both accounts, with what the middle state has added on either side
    refine (hadd (added (step s a))).1 (htrans (y := stock (step s a) + weight s a + added s + added last) ?_ ?_)
    · have h := (hadd (weight s a + added s)).2 hrest
      convert h using 1 <;> omega
    · have h := (hadd (added last)).2 hfirst
      convert h using 1; omega

end Mdrj.Core.Flood
