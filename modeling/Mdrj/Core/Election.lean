import Mathlib.Data.Finset.Card

/-!
# Virtual voting

Rounds of voters: in round `k` the party `c` is represented by `wit k c`, or
not at all. The voters of round `r + 1` vote on a candidate `w` of round `r`
by whether they see it; a later voter takes the side that `threshold`
members' voters of the round before, among those it sees, have taken, and
abstains otherwise. A candidate is decided when `threshold` members agree in
some round.

* `no_contrary`, `agree`: when two quorums meet, a decision in one round
  rules out every vote, hence every decision, against it in later ones.
* `Extends.vote_eq`, `Extends.votesFor_subset`: a larger election that only
  adds voters the old ones do not see keeps every old vote.
* `quorum_of_yes`: a late yes rests on a quorum of first votes.
* `Layered.seen_above`: what a quorum of one round sees, every later voter
  sees.
* `exists_coalition`: quotas over different sets of parties are told apart
  by some coalition.
-/
namespace Mdrj.Core
open Classical

structure Election (ι κ : Type) where
  members : Finset κ
  threshold : ℕ
  wit : ℕ → κ → Option ι
  sees : ι → ι → Prop

namespace Election
variable {ι κ : Type} (E : Election ι κ)

/-- The members represented in round `k` by a voter with the property. -/
noncomputable def votersWith (k : ℕ) (P : ι → Prop) : Finset κ :=
  E.members.filter fun c => ∃ u, E.wit k c = some u ∧ P u

/-- The members whose round-`k` voter `v` sees and whose vote is `b`. -/
noncomputable def ballots (votes : κ → Option (Option Bool)) (k : ℕ) (v : ι) (b : Bool) : Finset κ :=
  E.members.filter fun c => votes c = some (some b) ∧ ∃ u, E.wit k c = some u ∧ E.sees v u

noncomputable def tally (votes : κ → Option (Option Bool)) (k : ℕ) (v : ι) : Option Bool :=
  if E.threshold ≤ (E.ballots votes k v true).card then some true
  else if E.threshold ≤ (E.ballots votes k v false).card then some false
  else none

/-- The vote of `c` in round `r + 1 + k` on the candidate `w` of round `r`:
`none` without a voter, `some none` for an abstention. -/
noncomputable def vote (w : ι) (r : ℕ) : ℕ → κ → Option (Option Bool)
  | 0, c => if c ∈ E.members then (E.wit (r + 1) c).map fun v => some (decide (E.sees v w)) else none
  | k + 1, c => if c ∈ E.members then
      (E.wit (r + 1 + (k + 1)) c).map (E.tally (vote w r k) (r + 1 + k)) else none

noncomputable def votesFor (w : ι) (r k : ℕ) (b : Bool) : Finset κ :=
  E.members.filter fun c => E.vote w r k c = some (some b)

/-- A quorum of round `r + 1 + k` votes `b`. -/
def Carries (w : ι) (r k : ℕ) (b : Bool) : Prop := E.threshold ≤ (E.votesFor w r k b).card

/-- Two quorums meet, and no quorum is empty. -/
structure Quorate : Prop where
  pos : 1 ≤ E.threshold
  meet : E.members.card < 2 * E.threshold

variable {E}
variable {w : ι} {r k : ℕ} {c : κ} {b : Bool}

theorem mem_votersWith {P : ι → Prop} :
    c ∈ E.votersWith k P ↔ c ∈ E.members ∧ ∃ u, E.wit k c = some u ∧ P u := by
  unfold votersWith; exact Finset.mem_filter

theorem mem_ballots {votes : κ → Option (Option Bool)} {v : ι} :
    c ∈ E.ballots votes k v b ↔
      c ∈ E.members ∧ votes c = some (some b) ∧ ∃ u, E.wit k c = some u ∧ E.sees v u := by
  unfold ballots; exact Finset.mem_filter

theorem mem_votesFor : c ∈ E.votesFor w r k b ↔ c ∈ E.members ∧ E.vote w r k c = some (some b) := by
  unfold votesFor; exact Finset.mem_filter

theorem votesFor_sub : E.votesFor w r k b ⊆ E.members := Finset.filter_subset _ _

theorem votersWith_sub {P : ι → Prop} : E.votersWith k P ⊆ E.members := Finset.filter_subset _ _

theorem card_votersWith_mono {P Q : ι → Prop} (h : ∀ c v, E.wit k c = some v → P v → Q v) :
    (E.votersWith k P).card ≤ (E.votersWith k Q).card := by
  refine Finset.card_le_card fun c hc => ?_
  obtain ⟨hm, v, hv, hP⟩ := mem_votersWith.1 hc
  exact mem_votersWith.2 ⟨hm, v, hv, h c v hv hP⟩

/-- Who votes is represented. -/
theorem wit_of_vote (h : (E.vote w r k c).isSome) : ∃ v, E.wit (r + 1 + k) c = some v := by
  cases k with
  | zero =>
    unfold vote at h
    split at h
    · cases hw : E.wit (r + 1) c with
      | none => rw [hw] at h; cases h
      | some v => exact ⟨v, rfl⟩
    · cases h
  | succ k =>
    unfold vote at h
    split at h
    · cases hw : E.wit (r + 1 + (k + 1)) c with
      | none => rw [hw] at h; cases h
      | some v => exact ⟨v, rfl⟩
    · cases h

theorem tally_eq_some {votes : κ → Option (Option Bool)} {v : ι}
    (h : E.tally votes k v = some b) : E.threshold ≤ (E.ballots votes k v b).card := by
  unfold tally at h
  split at h
  · rename_i ht; cases h; exact ht
  · split at h
    · rename_i ht; cases h; exact ht
    · cases h

/-- A later vote rests on a quorum of the round before. -/
theorem carries_of_vote (h : E.vote w r (k + 1) c = some (some b)) : E.Carries w r k b := by
  unfold vote at h
  split at h
  · obtain ⟨v, -, hv⟩ := Option.map_eq_some_iff.1 h
    refine (tally_eq_some hv).trans (Finset.card_le_card fun c' hc' => ?_)
    obtain ⟨hm, hvote, -⟩ := mem_ballots.1 hc'
    exact mem_votesFor.2 ⟨hm, hvote⟩
  · cases h

theorem Quorate.meet_of_card (hq : E.Quorate) {A B : Finset κ} (hA : A ⊆ E.members)
    (hB : B ⊆ E.members) (ha : E.threshold ≤ A.card) (hb : E.threshold ≤ B.card) :
    ∃ c, c ∈ A ∧ c ∈ B := by
  have hlt : E.members.card < A.card + B.card := by have := hq.meet; omega
  obtain ⟨c, hc⟩ := Finset.inter_nonempty_of_card_lt_card_add_card hA hB hlt
  exact ⟨c, Finset.mem_inter.1 hc⟩

theorem Quorate.carries_one (hq : E.Quorate) (h : E.Carries w r k b) (h' : E.Carries w r k (!b)) :
    False := by
  obtain ⟨c, h1, h2⟩ := hq.meet_of_card votesFor_sub votesFor_sub h h'
  have e := (mem_votesFor.1 h1).2.symm.trans (mem_votesFor.1 h2).2
  cases b <;> cases e

theorem Quorate.exists_of_carries (hq : E.Quorate) (h : E.Carries w r k b) :
    ∃ c ∈ E.members, E.vote w r k c = some (some b) := by
  have hpos : 0 < (E.votesFor w r k b).card := lt_of_lt_of_le hq.pos h
  obtain ⟨c, hc⟩ := Finset.card_pos.1 hpos
  exact ⟨c, mem_votesFor.1 hc⟩

/-- After a round that carries `b`, nobody votes against `b`. -/
theorem no_contrary (hq : E.Quorate) (h : E.Carries w r k b) :
    ∀ j c, E.vote w r (k + 1 + j) c ≠ some (some (!b)) := by
  intro j
  induction j with
  | zero =>
    intro c hc
    exact hq.carries_one h (carries_of_vote hc)
  | succ j ih =>
    intro c hc
    obtain ⟨c', -, hc'⟩ := hq.exists_of_carries (carries_of_vote hc)
    exact ih c' hc'

/-- **Agreement.** No election carries both sides, in whatever rounds. -/
theorem agree (hq : E.Quorate) {k k' : ℕ} {b b' : Bool} (h : E.Carries w r k b)
    (h' : E.Carries w r k' b') : b = b' := by
  -- the earlier of the two rounds rules the other side out later on
  have key : ∀ {k k' b}, k ≤ k' → E.Carries w r k b → ¬ E.Carries w r k' (!b) := by
    intro k k' b hle h h'
    rcases Nat.eq_or_lt_of_le hle with rfl | hlt
    · exact hq.carries_one h h'
    · obtain ⟨j, rfl⟩ : ∃ j, k' = k + 1 + j := ⟨k' - (k + 1), by omega⟩
      obtain ⟨c, -, hc⟩ := hq.exists_of_carries h'
      exact no_contrary hq h j c hc
  by_contra hne
  have hb : b' = !b := by cases b <;> cases b' <;> simp_all
  subst hb
  rcases Nat.le_total k k' with hle | hle
  · exact key hle h h'
  · exact key hle h' (by simpa using h)

/-- A round that carries yes rests on a quorum of first votes for yes. -/
theorem quorum_of_yes (hq : E.Quorate) : ∀ {k}, E.Carries w r k b → E.Carries w r 0 b
  | 0, h => h
  | k + 1, h => by
    obtain ⟨c, -, hc⟩ := hq.exists_of_carries h
    exact quorum_of_yes hq (carries_of_vote hc)

theorem vote_zero_true (h : c ∈ E.votesFor w r 0 true) : c ∈ E.votersWith (r + 1) (E.sees · w) := by
  obtain ⟨hm, hv⟩ := mem_votesFor.1 h
  unfold vote at hv
  rw [if_pos hm] at hv
  obtain ⟨v, hw, hv⟩ := Option.map_eq_some_iff.1 hv
  exact mem_votersWith.2 ⟨hm, v, hw, by simpa using hv⟩

/-! ## Growth -/

/-- `E'` adds voters to `E`; the voters of `E` see no other voters there than
before. -/
structure Extends (E E' : Election ι κ) : Prop where
  members : E'.members = E.members
  threshold : E'.threshold = E.threshold
  wit : ∀ {k c v}, E.wit k c = some v → E'.wit k c = some v
  sees : ∀ {k c v}, E.wit k c = some v → ∀ u, E.sees v u ↔ E'.sees v u
  closed : ∀ {k c v k' c' u}, E.wit k c = some v → E'.wit k' c' = some u → E'.sees v u →
    E.wit k' c' = some u

variable {E' : Election ι κ}

theorem Extends.ballots_eq (h : Extends E E') {votes votes' : κ → Option (Option Bool)}
    (hv : ∀ c u, E.wit k c = some u → votes c = votes' c) {k' : ℕ} {c' : κ} {v : ι}
    (hw : E.wit k' c' = some v) : E.ballots votes k v b = E'.ballots votes' k v b := by
  ext c
  rw [mem_ballots, mem_ballots, h.members]
  refine and_congr_right fun _ => ⟨?_, ?_⟩
  · rintro ⟨hvote, u, hu, hs⟩
    exact ⟨hv c u hu ▸ hvote, u, h.wit hu, (h.sees hw u).1 hs⟩
  · rintro ⟨hvote, u, hu, hs⟩
    have hu' := h.closed hw hu hs
    exact ⟨(hv c u hu').symm ▸ hvote, u, hu', (h.sees hw u).2 hs⟩

/-- A voter votes the same however much the election grows. -/
theorem Extends.vote_eq (h : Extends E E') : ∀ {k c v}, E.wit (r + 1 + k) c = some v →
    E.vote w r k c = E'.vote w r k c
  | 0, c, v, hw => by
    simp only [Nat.add_zero] at hw
    unfold vote
    rw [h.members, hw, h.wit hw]
    simp only [Option.map_some, h.sees hw w]
  | k + 1, c, v, hw => by
    unfold vote
    rw [h.members, hw, h.wit hw]
    simp only [Option.map_some]
    have hb : ∀ b, E.ballots (E.vote w r k) (r + 1 + k) v b =
        E'.ballots (E'.vote w r k) (r + 1 + k) v b :=
      fun b => h.ballots_eq (fun c u hu => h.vote_eq hu) hw
    unfold tally
    rw [hb, hb, h.threshold]

theorem Extends.votesFor_subset (h : Extends E E') : E.votesFor w r k b ⊆ E'.votesFor w r k b := by
  intro c hc
  obtain ⟨hm, hv⟩ := mem_votesFor.1 hc
  obtain ⟨v, hw⟩ := wit_of_vote (k := k) (by rw [hv]; rfl)
  exact mem_votesFor.2 ⟨h.members ▸ hm, h.vote_eq hw ▸ hv⟩

theorem Extends.carries (h : Extends E E') (hc : E.Carries w r k b) : E'.Carries w r k b := by
  unfold Carries
  rw [h.threshold]
  exact hc.trans (Finset.card_le_card h.votesFor_subset)

/-- What the voters of a round see, they see however much the election grows. -/
theorem Extends.card_sees_le (h : Extends E E') (k : ℕ) (x : ι) :
    (E.votersWith k (E.sees · x)).card ≤ (E'.votersWith k (E'.sees · x)).card := by
  refine Finset.card_le_card fun c hc => ?_
  obtain ⟨hm, v, hv, hs⟩ := mem_votersWith.1 hc
  exact mem_votersWith.2 ⟨h.members ▸ hm, v, h.wit hv, (h.sees hv x).1 hs⟩

theorem Extends.quorate (h : Extends E E') (hq : E.Quorate) : E'.Quorate := by
  refine ⟨?_, ?_⟩
  · rw [h.threshold]; exact hq.pos
  · rw [h.members, h.threshold]; exact hq.meet

/-! ## Layers -/

/-- Seeing is transitive, and every voter sees a quorum of the round
before. -/
structure Layered (E : Election ι κ) : Prop where
  trans : ∀ {x y z}, E.sees x y → E.sees y z → E.sees x z
  step : ∀ {k c v}, E.wit (k + 1) c = some v → E.threshold ≤ (E.votersWith k (E.sees v)).card

/-- What a quorum of round `m` sees, every later voter sees. -/
theorem Layered.seen_above (h : Layered E) (hq : E.Quorate) {m : ℕ} {x : ι}
    (hx : E.threshold ≤ (E.votersWith m (E.sees · x)).card) :
    ∀ {k c v}, m < k → E.wit k c = some v → E.sees v x := by
  intro k
  induction k with
  | zero => intro c v hlt; omega
  | succ k ih =>
    intro c v hlt hw
    rcases Nat.eq_or_lt_of_le (Nat.le_of_lt_succ hlt) with rfl | hlt
    · obtain ⟨c', h1, h2⟩ := hq.meet_of_card votersWith_sub votersWith_sub hx (h.step hw)
      obtain ⟨-, u, hu, hux⟩ := mem_votersWith.1 h1
      obtain ⟨-, u', hu', hvu⟩ := mem_votersWith.1 h2
      obtain rfl : u = u' := Option.some.inj (hu.symm.trans hu')
      exact h.trans hvu hux
    · have hpos : 0 < (E.votersWith k (E.sees v)).card := lt_of_lt_of_le hq.pos (h.step hw)
      obtain ⟨c', hc'⟩ := Finset.card_pos.1 hpos
      obtain ⟨-, u, hu, hvu⟩ := mem_votersWith.1 hc'
      exact h.trans hvu (ih hlt hu)

end Election

/-! ## Quotas -/

/-- Whoever is counted by one quota and not by another is pivotal: some
coalition meets exactly one of the two. -/
theorem exists_coalition {α : Type} [DecidableEq α] {A B : Finset α} {p q : ℕ} {x : α} (hp : 1 ≤ p)
    (hpA : p ≤ A.card) (hxA : x ∈ A) (hxB : x ∉ B) :
    ∃ H ⊆ A, ¬ (p ≤ (A ∩ H).card ↔ q ≤ (B ∩ H).card) := by
  have hrest : p - 1 ≤ (A.erase x).card := by
    rw [Finset.card_erase_of_mem hxA]
    omega
  obtain ⟨H, hH, hcard⟩ := Finset.exists_subset_card_eq hrest
  have hHA : H ⊆ A := hH.trans (Finset.erase_subset x A)
  have hxH : x ∉ H := fun hx => Finset.notMem_erase x A (hH hx)
  by_cases hq : q ≤ (B ∩ H).card
  · refine ⟨H, hHA, fun hiff => ?_⟩
    have := hiff.2 hq
    rw [Finset.inter_eq_right.2 hHA] at this
    omega
  · refine ⟨insert x H, Finset.insert_subset hxA hHA, fun hiff => hq ?_⟩
    rw [← Finset.inter_insert_of_notMem hxB]
    refine hiff.1 ?_
    rw [Finset.inter_eq_right.2 (Finset.insert_subset hxA hHA), Finset.card_insert_of_notMem hxH]
    omega

end Mdrj.Core
