import Mdrj.L2Consensus.Listing

/-!
# Rounds and witnesses without forks

On a graph without forks the round loop is about ancestry alone. `WitAt G R
r c w` says that `w` is the event of `c` in round `r` that descends from no
other; `RoundAt` is the equation for one event's round. The loop establishes
them for its own table (`rounds_yields`), and on views of one graph the
equations have one solution (`View.round_eq`), so neither the processing
order nor later events can move a round or a witness flag.
-/
namespace Mdrj.L2
open Mdrj.Core Mdrj.L1 Relation

variable {G G' : List Event} {members : List String} {R R' : String → Nat}

/-- `w` is the witness of `c` in round `r`. -/
structure WitAt (G : List Event) (R : String → Nat) (r : Nat) (c w : String) : Prop where
  auth : Auth G w c
  round : R w = r
  first : ∀ y, Auth G y c → Anc G w y → R y ≠ r

open Classical in
/-- The members whose witness of round `b` is an ancestor of `x`. -/
noncomputable def seenWits (G : List Event) (members : List String) (R : String → Nat) (b : Nat)
    (x : String) : Finset String :=
  members.toFinset.filter fun c => ∃ w, Anc G x w ∧ WitAt G R b c w

theorem mem_seenWits {b : Nat} {x c : String} :
    c ∈ seenWits G members R b x ↔ c ∈ members ∧ ∃ w, Anc G x w ∧ WitAt G R b c w := by
  simp only [seenWits, Finset.mem_filter, List.mem_toFinset]

/-- The round of `x` follows from the rounds of its ancestors. -/
def RoundAt (G : List Event) (members : List String) (R : String → Nat) (x : String) : Prop :=
  ∃ b, IsBase G R x b ∧
    R x = if supermajorityThreshold members.length ≤ (seenWits G members R b x).card
      then b + 1 else b

/-! ## The equations only look at ancestors -/

section Congr
variable (hv : View G G') (hn : (ids G').Nodup)
include hv hn

theorem View.isBase {x : String} (hx : x ∈ ids G)
    (hR : ∀ y, Anc G x y → y ∈ ids G → R y = R' y) {b : Nat} (h : IsBase G R x b) :
    IsBase G' R' x b := by
  have mem : ∀ p, Par G' x p → p ∈ ids G' → Par G x p ∧ p ∈ ids G ∧ R p = R' p := by
    intro p hp hpG
    have hpar := (hv.par_iff hn hx p).2 hp
    have hpG' := hv.mem_of_anc hn hx (TransGen.single hp) hpG
    exact ⟨hpar, hpG', hR p (TransGen.single hpar) hpG'⟩
  refine ⟨fun p hp hpG => ?_, ?_⟩
  · obtain ⟨h1, h2, h3⟩ := mem p hp hpG
    exact h3 ▸ h.ge p h1 h2
  · rcases h.attained with hb | ⟨p, hp, hpG, hr⟩
    · exact .inl hb
    · refine .inr ⟨p, (hv.par_iff hn hx p).1 hp, hv.mem_ids hpG, ?_⟩
      rw [← hr, hR p (TransGen.single hp) hpG]

theorem View.witAt_iff {r : Nat} {c w : String} (hw : w ∈ ids G)
    (hR : ∀ y, Sees G w y → y ∈ ids G → R y = R' y) :
    WitAt G R r c w ↔ WitAt G' R' r c w := by
  have hself : R w = R' w := hR w ReflTransGen.refl hw
  constructor
  · rintro ⟨ha, hr, hf⟩
    refine ⟨(hv.auth_iff hn hw).1 ha, hself ▸ hr, fun y hy hwy => ?_⟩
    have hyG := hv.mem_of_anc hn hw hwy hy.mem
    have hwy' := (hv.anc_iff hn hw).2 hwy
    rw [← hR y hwy'.to_reflTransGen hyG]
    exact hf y ((hv.auth_iff hn hyG).2 hy) hwy'
  · rintro ⟨ha, hr, hf⟩
    refine ⟨(hv.auth_iff hn hw).2 ha, hself ▸ hr, fun y hy hwy => ?_⟩
    rw [hR y hwy.to_reflTransGen hy.mem]
    exact hf y ((hv.auth_iff hn hy.mem).1 hy) ((hv.anc_iff hn hw).1 hwy)

theorem View.seenWits_eq {x : String} (hx : x ∈ ids G) (b : Nat)
    (hR : ∀ y, Anc G x y → y ∈ ids G → R y = R' y) :
    seenWits G members R b x = seenWits G' members R' b x := by
  have hsub : ∀ {w}, Anc G x w → ∀ y, Sees G w y → y ∈ ids G → R y = R' y :=
    fun hxw y hwy hy => hR y (TransGen.trans_left hxw hwy) hy
  ext c
  rw [mem_seenWits, mem_seenWits]
  refine and_congr_right fun _ => ⟨?_, ?_⟩
  · rintro ⟨w, hxw, hw⟩
    exact ⟨w, (hv.anc_iff hn hx).1 hxw, (hv.witAt_iff hn hw.auth.mem (hsub hxw)).1 hw⟩
  · rintro ⟨w, hxw, hw⟩
    have hwG := hv.mem_of_anc hn hx hxw hw.auth.mem
    have hxw' := (hv.anc_iff hn hx).2 hxw
    exact ⟨w, hxw', (hv.witAt_iff hn hwG (hsub hxw')).2 hw⟩

/-- The equations have one solution: two of them, on two views, agree on the
events both have. -/
theorem View.round_eq (hG : ParentsFirst G) (h : ∀ x ∈ ids G, RoundAt G members R x)
    (h' : ∀ x ∈ ids G', RoundAt G' members R' x) : ∀ x ∈ ids G, R x = R' x := by
  -- strong induction on the position in `G`; ancestors stand before
  suffices H : ∀ k, ∀ x ∈ ids G, (ids G).idxOf x = k → R x = R' x by
    intro x hx
    exact H _ x hx rfl
  intro k
  induction k using Nat.strong_induction_on with
  | _ k ih =>
    intro x hx hk
    have hR : ∀ y, Anc G x y → y ∈ ids G → R y = R' y := fun y hy hyG =>
      ih _ (hk ▸ hG.anc_idxOf_lt hy hyG) y hyG rfl
    obtain ⟨b, hb, hr⟩ := h x hx
    obtain ⟨b', hb', hr'⟩ := h' x (hv.mem_ids hx)
    obtain rfl := (hv.isBase hn hx hR hb).unique hb'
    rw [hr, hr', hv.seenWits_eq hn hx b hR]

end Congr
/-! ## The loop -/

open Classical in
/-- The table after the events `pre` of `G`. -/
structure TableInv (G : List Event) (members : List String) (pre : List Event)
    (t : RoundTable) : Prop where
  dom : ∀ x, x ∈ Dict.keys t.rounds ↔ x ∈ ids pre
  rounds : ∀ x ∈ ids pre, RoundAt G members t.round x
  wits : ∀ r c w, Dict.get (t.witnesses r) c = some w ↔ w ∈ ids pre ∧ WitAt G t.round r c w
  flags : ∀ e ∈ pre, Dict.get t.witnessFlags e.id =
    some (decide (WitAt G t.round (t.round e.id) e.author e.id))
  nodup : ∀ r, (Dict.keys (t.witnesses r)).Nodup
  roundsNodup : (Dict.keys t.witnessesByRound).Nodup
  filled : ∀ r, r ∈ Dict.keys t.witnessesByRound ↔ ∃ x ∈ ids pre, t.round x = r

/-- Without forks the first event of an author in a round is the one that
descends from no other. -/
theorem witAt_iff_firstAt (hG : ParentsFirst G) (hf : ForkFree G) {r : Nat} {c w : String} :
    WitAt G R r c w ↔ firstAt G R r c = some w := by
  constructor
  · intro h
    obtain ⟨w', hw'⟩ := exists_firstAt h.auth R
    rw [h.round] at hw'
    obtain ⟨hauth, hround⟩ := firstAt_some hw'
    rcases hf.auth h.auth hauth with rfl | hanc | hanc
    · exact hw'
    · exact absurd hround (h.first w' hauth hanc)
    · have hle := firstAt_le hG.nodup hw' h.auth h.round
      have hlt := hG.anc_idxOf_lt hanc h.auth.mem
      omega
  · intro h
    obtain ⟨hauth, hround⟩ := firstAt_some h
    refine ⟨hauth, hround, fun y hy hanc hyr => ?_⟩
    have hle := firstAt_le hG.nodup h hy hyr
    have hlt := hG.anc_idxOf_lt hanc hy.mem
    omega

theorem seenWits_eq_seenFirst (hG : ParentsFirst G) (hf : ForkFree G) (b : Nat) (x : String) :
    seenWits G members R b x = seenFirst G G members R b x := by
  ext c
  rw [mem_seenWits, mem_seenFirst]
  simp only [witAt_iff_firstAt hG hf, and_comm]

theorem ListInv.tableInv {t : RoundTable} (h : ListInv G members G t) (hG : ParentsFirst G)
    (hf : ForkFree G) : TableInv G members G t where
  dom := h.dom
  rounds := by
    intro x hx
    refine (h.rounds x hx).congr rfl (fun _ _ _ => rfl) fun b => ?_
    exact (seenWits_eq_seenFirst hG hf b x).symm
  wits := by
    intro r c w
    rw [h.wits, witAt_iff_firstAt hG hf]
    exact ⟨fun hw => ⟨(firstAt_some hw).1.mem, hw⟩, fun hw => hw.2⟩
  flags := by
    intro e he
    rw [h.flags e he]
    exact congrArg some (decide_eq_decide.2 (witAt_iff_firstAt hG hf).symm)
  nodup := h.nodup
  roundsNodup := h.roundsNodup
  filled := h.filled

/-- **The round loop.** On a fork-free graph listed parents first the loop
ends with a table whose rounds solve the equations and whose slots are the
witnesses. -/
theorem rounds_yields (members : List String) (hG : ParentsFirst G) (hf : ForkFree G) :
    Yields (CacheOk G) (loopM (roundStep (passCtx G members)) {} G) (TableInv G members G) :=
  (listing_yields members hG).mono fun _ h => h.tableInv hG hf

/-- Without forks a round has one witness of an author. -/
theorem WitAt.unique (hf : ForkFree G) {r : Nat} {c w w' : String} (h : WitAt G R r c w)
    (h' : WitAt G R r c w') : w = w' := by
  rcases hf.auth h.auth h'.auth with he | hw | hw
  · exact he
  · exact absurd h'.round (h.first w' h'.auth hw)
  · exact absurd h.round (h'.first w h.auth hw)

/-! ## Rounds grow along ancestry, over full layers -/

section Solution
variable (hG : ParentsFirst G) (hR : ∀ x ∈ ids G, RoundAt G members R x)

include hR in
theorem round_mono {x y : String} (h : Sees G x y) (hy : y ∈ ids G) : R y ≤ R x :=
  RoundBy.mono (seenWits G members R) hR h hy

theorem seenWits_mono {k : Nat} {x y : String} (h : Anc G x y) :
    seenWits G members R k y ⊆ seenWits G members R k x := by
  intro c hc
  obtain ⟨hm, w, hyw, hw⟩ := mem_seenWits.1 hc
  exact mem_seenWits.2 ⟨hm, w, h.trans hyw, hw⟩

include hG hR in
/-- An event above round `k` descends from a supermajority of its witnesses. -/
theorem round_support {k : Nat} {x : String} (hx : x ∈ ids G) (hk : k < R x) :
    supermajorityThreshold members.length ≤ (seenWits G members R k x).card :=
  RoundBy.support (seenWits G members R) hR hG seenWits_mono hx hk

include hG hR in
theorem exists_round_below {k : Nat} {x : String} (hx : x ∈ ids G) (hk : k ≤ R x) :
    ∃ y ∈ ids G, R y = k := by
  rcases Nat.eq_or_lt_of_le hk with rfl | hk
  · exact ⟨x, hx, rfl⟩
  · have hpos := (threshold_pos members.length).trans (round_support hG hR hx hk)
    obtain ⟨c, hc⟩ := Finset.card_pos.1 hpos
    obtain ⟨-, w, -, hw⟩ := mem_seenWits.1 hc
    exact ⟨w, hw.auth.mem, hw.round⟩

end Solution

theorem TableInv.stacked {t : RoundTable} (h : TableInv G members G t) (hG : ParentsFirst G) :
    t.Stacked :=
  RoundTable.stacked_of_filled h.roundsNodup h.nodup h.filled (exists_round_below hG h.rounds)

theorem TableInv.lt_count {t : RoundTable} (h : TableInv G members G t) (hG : ParentsFirst G)
    {r : Nat} : r < t.count ↔ ∃ x ∈ ids G, t.round x = r := by
  rw [← h.filled, (h.stacked hG).mem_keys]

end Mdrj.L2
