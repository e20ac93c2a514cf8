import Mdrj.L2Consensus.OrderFree

/-!
# Flat graphs

In a graph where no event descends from an event of a member, nobody is
outvoted: all events are in round zero, no witness has a verdict, and an
event is received if a supermajority of members has an event that sees it
(`Flat.received_eq`). Which members count is then visible in the received
rounds, so such graphs tell memberships apart.
-/
namespace Mdrj.L2
open Mdrj.Core Mdrj.L1 Relation

variable {G : List Event} {members : List String} {t : RoundTable}

/-- The events others descend from are by outsiders. -/
def Flat (G : List Event) (members : List String) : Prop :=
  ∀ x y c, Anc G x y → Auth G y c → c ∉ members

open Classical in
/-- The members with an event that sees `x`. -/
noncomputable def seers (G : List Event) (members : List String) (x : String) : Finset String :=
  members.toFinset.filter fun c => ∃ v, Auth G v c ∧ Sees G v x

theorem mem_seers {x c : String} : c ∈ seers G members x ↔ c ∈ members ∧ ∃ v, Auth G v c ∧ Sees G v x := by
  simp only [seers, Finset.mem_filter, List.mem_toFinset]

namespace Flat
variable (hflat : Flat G members) (hG : ParentsFirst G) (h : TableInv G members G t)
include hflat hG h

theorem round_eq_zero : ∀ x ∈ ids G, t.round x = 0 := by
  -- along the list: parents stand before their children
  suffices H : ∀ k, ∀ x ∈ ids G, (ids G).idxOf x = k → t.round x = 0 from fun x hx => H _ x hx rfl
  intro k
  induction k using Nat.strong_induction_on with
  | _ k ih =>
    intro x hx hk
    obtain ⟨b, hb, hr⟩ := h.rounds x hx
    have hnone : seenWits G members t.round b x = ∅ := by
      refine Finset.eq_empty_of_forall_notMem fun c hc => ?_
      obtain ⟨hm, w, hxw, hw⟩ := mem_seenWits.1 hc
      exact hflat x w c hxw hw.auth hm
    have hpos := threshold_pos members.length
    rw [hnone, Finset.card_empty, if_neg (by omega)] at hr
    rcases hb.attained with h0 | ⟨p, hp, hpG, hpb⟩
    · rw [hr, h0]
    · rw [hr, ← hpb]
      exact ih _ (hk ▸ hG.anc_idxOf_lt (TransGen.single hp) hpG) p hpG rfl

theorem wit_iff {r : Nat} {c w : String} (hc : c ∈ members) :
    (election G members t).wit r c = some w ↔ r = 0 ∧ Auth G w c := by
  refine (h.wits r c w).trans ⟨?_, ?_⟩
  · rintro ⟨hw, hwit⟩
    exact ⟨hwit.round.symm.trans (round_eq_zero hflat hG h w hw), hwit.auth⟩
  · rintro ⟨rfl, hauth⟩
    exact ⟨hauth.mem, hauth, round_eq_zero hflat hG h w hauth.mem,
      fun y hy hwy _ => hflat w y c hwy hy hc⟩

theorem count_eq_one (hne : G ≠ []) : t.count = 1 := by
  obtain ⟨e, he⟩ := List.exists_mem_of_ne_nil G hne
  have hx : e.id ∈ ids G := List.mem_map_of_mem he
  have hpos : 0 < t.count := (h.lt_count hG).2 ⟨e.id, hx, round_eq_zero hflat hG h _ hx⟩
  have hlt : ¬ 1 < t.count := fun hlt => by
    obtain ⟨x, hx, hr⟩ := (h.lt_count hG).1 hlt
    rw [round_eq_zero hflat hG h x hx] at hr
    cases hr
  omega

/-- Nobody votes in a later round. -/
theorem not_decided (w : String) : ¬ Decided (election G members t) t.count 0 w := by
  have hlate : ∀ k c, c ∈ members → (election G members t).wit (0 + 1 + k) c = none := by
    intro k c hc
    refine Option.eq_none_iff_forall_ne_some.2 fun v hv => ?_
    have := ((wit_iff hflat hG h hc).1 hv).1
    omega
  unfold Decided
  cases fameRecord_case hG (h.stacked hG) 0 w with
  | vote _ _ hc =>
    obtain ⟨k, hc⟩ := hc
    obtain ⟨c, hm, hv⟩ := election_quorate.exists_of_carries hc
    obtain ⟨v, hw⟩ := Election.wit_of_vote (k := k) (by rw [hv]; rfl)
    rw [hlate k c (List.mem_toFinset.1 hm)] at hw
    cases hw
  | coin _ _ hlong _ _ =>
    obtain ⟨k, hk⟩ := Finset.card_pos.1 (by omega : 0 < (votingRounds (election G members t) t.count 0).card)
    simp only [votingRounds, Finset.mem_filter] at hk
    obtain ⟨-, hpos, c, hm, hs⟩ := hk
    obtain ⟨k, rfl⟩ : ∃ k', k = 0 + 1 + k' := ⟨k - 1, by omega⟩
    rw [hlate k c (List.mem_toFinset.1 hm)] at hs
    cases hs
  | pending hd _ _ _ _ => rw [hd]; decide

theorem votersWith_sees (x : String) :
    (election G members t).votersWith 0 ((election G members t).sees · x) = seers G members x := by
  ext c
  rw [Election.mem_votersWith, mem_seers]
  refine ⟨?_, ?_⟩
  · rintro ⟨hm, v, hv, hs⟩
    have hm := List.mem_toFinset.1 hm
    exact ⟨hm, v, ((wit_iff hflat hG h hm).1 hv).2, hs⟩
  · rintro ⟨hm, v, hv, hs⟩
    exact ⟨List.mem_toFinset.2 hm, v, (wit_iff hflat hG h hm).2 ⟨rfl, hv⟩, hs⟩

/-- **What is received in a flat graph.** -/
theorem received_eq (hne : G ≠ []) (x : String) : received (election G members t) t.count x =
    if supermajorityThreshold members.length ≤ (seers G members x).card then some 0 else none := by
  have hiff : Receives (election G members t) t.count x 0 ↔
      supermajorityThreshold members.length ≤ (seers G members x).card := by
    rw [← votersWith_sees hflat hG h x]
    constructor
    · rintro (⟨hdec, hle⟩ | ⟨-, hle⟩)
      · obtain ⟨c, v, hv, -⟩ := votersWith_pos election_quorate hle
        exact absurd (hdec c v hv) (not_decided hflat hG h v)
      · exact hle
    · intro hle
      exact .inr ⟨fun c w _ => not_decided hflat hG h w, hle⟩
  rw [count_eq_one hflat hG h hne] at hiff ⊢
  split
  · rename_i hle
    exact received_eq_some.2 ⟨Nat.one_pos, hiff.2 hle, fun r hr => absurd hr (Nat.not_lt_zero r)⟩
  · rename_i hle
    refine received_eq_none.2 fun r hr hrec => hle (hiff.1 ?_)
    obtain rfl : r = 0 := by omega
    exact hrec

end Flat

/-! ## Graphs in two layers -/

/-- Every event has its author's name for an id, and the parents its name
gives. -/
def Named (G : List Event) (par : String → List String) : Prop :=
  ∀ e ∈ G, e.author = e.id ∧ e.parents = par e.id

namespace Named
variable {par : String → List String} (h : Named G par)
include h

theorem par_iff {x y : String} : Par G x y ↔ x ∈ ids G ∧ y ∈ par x := by
  constructor
  · intro hp
    obtain ⟨e, he, rfl, hy⟩ := hp
    exact ⟨List.mem_map_of_mem he, (h e he).2 ▸ hy⟩
  · intro hp
    obtain ⟨hx, hy⟩ := hp
    obtain ⟨e, he, rfl⟩ := List.mem_map.1 hx
    exact ⟨e, he, rfl, (h e he).2 ▸ hy⟩

theorem auth_iff {x c : String} : Auth G x c ↔ x ∈ ids G ∧ c = x := by
  constructor
  · intro ha
    obtain ⟨e, he, rfl, rfl⟩ := ha
    exact ⟨List.mem_map_of_mem he, (h e he).1⟩
  · intro ha
    obtain ⟨hx, rfl⟩ := ha
    obtain ⟨e, he, rfl⟩ := List.mem_map.1 hx
    exact ⟨e, he, rfl, (h e he).1⟩

theorem forkFree : ForkFree G := by
  intro a ha b hb hab
  rw [(h a ha).1, (h b hb).1] at hab
  exact .inl hab

/-- Without members among the parents the graph is flat. -/
theorem flat (hout : ∀ x ∈ ids G, ∀ y ∈ par x, y ∉ members) : Flat G members := by
  intro x y c hxy hc
  obtain ⟨z, -, hz⟩ := TransGen.tail'_iff.1 hxy
  obtain ⟨hzG, hy⟩ := h.par_iff.1 hz
  obtain ⟨-, rfl⟩ := h.auth_iff.1 hc
  exact hout z hzG c hy

/-- With parents that have none themselves, an event sees itself and its
parents. -/
theorem sees_iff_of_layers (htwo : ∀ x ∈ ids G, ∀ y ∈ par x, par y = []) {v x : String} :
    Sees G v x ↔ v = x ∨ v ∈ ids G ∧ x ∈ par v := by
  rw [sees_iff]
  refine or_congr_right ?_
  constructor
  · intro hvx
    obtain ⟨z, hvz, hz⟩ := TransGen.tail'_iff.1 hvx
    obtain ⟨hzG, hx⟩ := h.par_iff.1 hz
    -- `z` has a parent, so nothing has `z` for a parent
    rcases ReflTransGen.cases_tail hvz with rfl | ⟨u, -, hu⟩
    · exact ⟨hzG, hx⟩
    · obtain ⟨huG, hzu⟩ := h.par_iff.1 hu
      rw [htwo u huG z hzu] at hx
      cases hx
  · intro hx
    exact TransGen.single (h.par_iff.2 hx)

theorem mem_seers_of_layers (htwo : ∀ x ∈ ids G, ∀ y ∈ par x, par y = []) {x c : String} :
    c ∈ seers G members x ↔ c ∈ members ∧ c ∈ ids G ∧ (c = x ∨ x ∈ par c) := by
  rw [mem_seers]
  refine and_congr_right fun _ => ?_
  constructor
  · intro hs
    obtain ⟨v, hv, hvx⟩ := hs
    obtain ⟨hvG, rfl⟩ := h.auth_iff.1 hv
    exact ⟨hvG, ((h.sees_iff_of_layers htwo).1 hvx).imp id And.right⟩
  · intro hs
    obtain ⟨hc, hcx⟩ := hs
    exact ⟨c, h.auth_iff.2 ⟨hc, rfl⟩, (h.sees_iff_of_layers htwo).2 (hcx.imp id fun hx => ⟨hc, hx⟩)⟩

end Named
end Mdrj.L2
