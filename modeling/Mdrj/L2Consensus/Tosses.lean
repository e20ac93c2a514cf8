import Mathlib.Order.Bounds.Basic
import Mdrj.L2Consensus.Finality

/-!
# Tosses

The voting on a graph, read off the graph alone: rounds are the solution of
their equations (`roundsOf`), the voters of a round its witnesses (`voting`).
Where two rounds vote on a witness and neither has a supermajority for a side,
the coin surrogate tosses for it in the last round that votes (`Tossed`,
`Side`). A toss is repeated when a later round votes, and may fall the other
way.

* `election_eq_voting`: the election of a pass is the voting on its graph.
* `Graded.side_iff`: a pass decides a witness for the side of its votes or of
  its toss.
* `TossesKept.fameKept`: where the tosses of the smaller view are kept, so is
  all fame it has decided.
-/
namespace Mdrj.L2
open Mdrj.Core Mdrj.L1 Relation

/-! ## The voting on a graph -/

/-- The rounds of the events of `G`. -/
noncomputable def roundsOf (G : List Event) (members : List String) : String → Nat :=
  Classical.epsilon fun R => ∀ x ∈ ids G, RoundAt G members R x

open Classical in
/-- The voting of the members on `G`. -/
noncomputable def voting (G : List Event) (members : List String) : Election String String where
  members := members.toFinset
  threshold := supermajorityThreshold members.length
  wit := fun r c => if h : ∃ w, WitAt G (roundsOf G members) r c w then some h.choose else none
  sees := Sees G

section Voting
variable {G : List Event} {members : List String} {t : RoundTable}

theorem roundsOf_eq (hG : ParentsFirst G) (h : TableInv G members G t) :
    ∀ x ∈ ids G, t.round x = roundsOf G members x := by
  have hex : ∃ R : String → Nat, ∀ x ∈ ids G, RoundAt G members R x := ⟨t.round, h.rounds⟩
  exact (View.refl G).round_eq hG.nodup hG h.rounds (Classical.epsilon_spec hex)

theorem witAt_roundsOf (hG : ParentsFirst G) (h : TableInv G members G t) {r : Nat} {c w : String} :
    WitAt G (roundsOf G members) r c w ↔ Dict.get (t.witnesses r) c = some w := by
  rw [h.wits]
  constructor
  · intro hw
    have hmem := hw.auth.mem
    exact ⟨hmem, ((View.refl G).witAt_iff hG.nodup hmem fun y _ hy => roundsOf_eq hG h y hy).2 hw⟩
  · rintro ⟨hmem, hw⟩
    exact ((View.refl G).witAt_iff hG.nodup hmem fun y _ hy => roundsOf_eq hG h y hy).1 hw

/-- The round table of a pass holds the voters of the graph. -/
theorem election_eq_voting (hG : ParentsFirst G) (h : TableInv G members G t) :
    election G members t = voting G members := by
  have hwit : ∀ r c, Dict.get (t.witnesses r) c = (voting G members).wit r c := by
    intro r c
    unfold voting
    dsimp only
    split
    · next hex => exact (witAt_roundsOf hG h).1 hex.choose_spec
    · next hnone =>
      rw [Option.eq_none_iff_forall_ne_some]
      exact fun w hw => hnone ⟨w, (witAt_roundsOf hG h).2 hw⟩
  have hfun : (fun r c => Dict.get (t.witnesses r) c) = (voting G members).wit :=
    funext fun r => funext (hwit r)
  unfold election
  rw [hfun]
  rfl

end Voting

/-! ## Tosses -/

/-- Round `k` votes on the witnesses of round `r`. -/
def VotesOn (E : Election String String) (r k : Nat) : Prop := r < k ∧ ∃ c ∈ E.members, (E.wit k c).isSome

/-- Two rounds vote on `w`, and none carries a side. -/
structure Tossed (E : Election String String) (r : Nat) (w : String) : Prop where
  rounds : ∃ j k, j ≠ k ∧ VotesOn E r j ∧ VotesOn E r k
  undecided : ∀ k b, ¬ E.Carries w r k b

/-- The side `w` gets, by a vote or by the toss in the last round that votes. -/
inductive Side (E : Election String String) (r : Nat) (w : String) (b : Bool) : Prop
  | vote (k : Nat) (carries : E.Carries w r k b)
  | toss (tossed : Tossed E r w) (k : Nat) (last : IsGreatest {k | VotesOn E r k} k)
    (falls : deterministicCoinChoice w k = b)

/-- The tosses of `E` stand in `E'`. -/
structure TossesKept (E E' : Election String String) : Prop where
  /-- What was tossed keeps its side, by votes that have come in or by a toss
  that falls the same way. -/
  again : ∀ {r c w b}, E.wit r c = some w → Tossed E r w → Side E r w b → Side E' r w b
  /-- Below a full round nothing is tossed for the first time. -/
  first : ∀ {r c w}, E.wit r c = some w → Full E (r + 1) → Tossed E' r w → Tossed E r w

theorem TossesKept.refl (E : Election String String) : TossesKept E E :=
  ⟨fun _ _ h => h, fun _ _ h => h⟩

section Sides
variable {E : Election String String} {n : Nat}

theorem Graded.mem_votingRounds (g : Graded E n) {r k : Nat} : k ∈ votingRounds E n r ↔ VotesOn E r k := by
  unfold VotesOn votingRounds
  rw [Finset.mem_filter, Finset.mem_range]
  constructor
  · exact fun h => h.2
  · rintro ⟨hlt, c, hc, hw⟩
    obtain ⟨v, hv⟩ := Option.isSome_iff_exists.1 hw
    exact ⟨g.bound hv, hlt, c, hc, hw⟩

theorem Graded.tossed_iff (g : Graded E n) {r : Nat} {w : String} :
    Tossed E r w ↔ 2 ≤ (votingRounds E n r).card ∧ ∀ k b, ¬ E.Carries w r k b := by
  constructor
  · rintro ⟨⟨j, k, hne, hj, hk⟩, hopen⟩
    exact ⟨Finset.one_lt_card.2 ⟨j, g.mem_votingRounds.2 hj, k, g.mem_votingRounds.2 hk, hne⟩, hopen⟩
  · rintro ⟨hlong, hopen⟩
    obtain ⟨j, hj, k, hk, hne⟩ := Finset.one_lt_card.1 hlong
    exact ⟨⟨j, k, hne, g.mem_votingRounds.1 hj, g.mem_votingRounds.1 hk⟩, hopen⟩

theorem Graded.last_iff (g : Graded E n) {r k : Nat} (h : (votingRounds E n r).Nonempty) :
    IsGreatest {k | VotesOn E r k} k ↔ (votingRounds E n r).sup id = k := by
  have hgreatest : IsGreatest {k | VotesOn E r k} ((votingRounds E n r).sup id) := by
    constructor
    · obtain ⟨j, hj, heq⟩ := Finset.exists_mem_eq_sup _ h id
      rw [heq]
      exact g.mem_votingRounds.1 hj
    · intro j hj
      exact Finset.le_sup (f := id) (g.mem_votingRounds.2 hj)
  exact ⟨fun hk => hgreatest.unique hk, fun hk => hk ▸ hgreatest⟩

/-- A pass decides a witness for its side. -/
theorem Graded.side_iff (g : Graded E n) {r : Nat} {w : String} {b : Bool} :
    Side E r w b ↔ Decided E n r w ∧ (fameRecord E n r w).famous = b := by
  constructor
  · rintro (⟨k, hc⟩ | ⟨htossed, k, hlast, rfl⟩)
    · exact g.decided_of_carries hc
    · obtain ⟨hlong, hopen⟩ := g.tossed_iff.1 htossed
      have hne : (votingRounds E n r).Nonempty := Finset.card_pos.1 (by omega)
      cases g.record r w with
      | vote _ _ hc => exact absurd hc.choose_spec (hopen _ _)
      | coin hd _ _ _ htoss => exact ⟨hd, by rw [htoss, (g.last_iff hne).1 hlast]⟩
      | pending _ _ _ hshort _ => omega
  · rintro ⟨hd, rfl⟩
    cases g.record r w with
    | vote _ _ hc => exact .vote _ hc.choose_spec
    | coin _ _ hlong hopen htoss =>
      have hne : (votingRounds E n r).Nonempty := Finset.card_pos.1 (by omega)
      exact .toss (g.tossed_iff.2 ⟨hlong, hopen⟩) _ ((g.last_iff hne).2 rfl) htoss.symm
    | pending hdec _ _ _ _ =>
      have hd' : (fameRecord E n r w).decided = true := hd
      rw [hdec] at hd'
      cases hd'

/-- The record of a tossed witness names the coin. -/
theorem Graded.tossed_iff_kind (g : Graded E n) {r : Nat} {w : String} :
    Tossed E r w ↔ (fameRecord E n r w).decisionKind = .coinSurrogate := by
  rw [g.tossed_iff]
  cases g.record r w with
  | vote _ hk hc =>
    rw [hk]
    exact ⟨fun h => absurd hc.choose_spec (h.2 _ _), nofun⟩
  | coin _ hk hlong hopen _ =>
    rw [hk]
    exact ⟨fun _ => rfl, fun _ => ⟨hlong, hopen⟩⟩
  | pending _ hk _ hshort _ =>
    rw [hk]
    exact ⟨fun h => by omega, nofun⟩

end Sides

/-- **Fame is kept** where the tosses are. -/
theorem TossesKept.fameKept {E E' : Election String String} {n n' : Nat} {V V' : String → Prop}
    (g : Growth E E' n n' V V') (h : TossesKept E E') : FameKept E E' n n' where
  kept := by
    intro r c w hw hd
    have hside := g.small.side_iff.2 ⟨hd, rfl⟩
    refine g.large.side_iff.1 ?_
    cases hside with
    | vote k hc => exact .vote k (g.ext.carries hc)
    | toss htossed k hlast hfalls => exact h.again hw htossed (.toss htossed k hlast hfalls)
  voted := by
    intro r c w hfull hshort hw hd
    cases g.large.side_iff.2 ⟨hd, rfl⟩ with
    | vote k hc => exact ⟨k, hc⟩
    | toss htossed _ _ _ =>
      by_cases hold : E.wit r c = some w
      · have := (g.small.tossed_iff.1 (h.first hold hfull htossed)).1
        omega
      · exact absurd (g.late_witness hfull hw hold) (htossed.undecided 0 false)

end Mdrj.L2
