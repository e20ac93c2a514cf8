import Mathlib.Data.Finset.Max
import Mdrj.L2Consensus.Views

/-!
# Received rounds under growth

When a graph grows, the received round of an old event can move: a round
that was open when the event passed it may close later. It cannot move below
the second newest full round, as long as a decided witness keeps its fame
(`FameKept`). A vote does; the coin surrogate need not, as its toss depends on
the last voting round and is repeated when that changes.

* `Graded.decided_of_full`: two rounds below a full one, every witness is
  decided.
* `Growth.receives_iff`: a settled round receives the same events before
  and after.
* `Growth.received_low_iff`: so the received rounds up to two below the
  newest are final.
* `Growth.exists_received_ge`: and the newest received round never falls.
-/
namespace Mdrj.L2
open Mdrj.Core Mdrj.L1 Relation

/-! ## One view -/

/-- What the election of a pass satisfies. -/
structure Graded (E : Election String String) (n : Nat) : Prop where
  layered : E.Layered
  quorate : E.Quorate
  bound : ∀ {k c v}, E.wit k c = some v → k < n
  record : ∀ r w, RecordCase E n r w (fameRecord E n r w)
  refl : ∀ v, E.sees v v
  mono : ∀ {k c v k' c' u}, E.wit k c = some v → E.wit k' c' = some u → E.sees v u → k' ≤ k
  antisymm : ∀ {u v}, E.sees u v → E.sees v u → u = v
  inj : ∀ {k c c' v}, E.wit k c = some v → E.wit k c' = some v → c = c'

section Tables
variable {G : List Event} {members : List String} {t : RoundTable}

/-- The election of a stacked table is graded, when the table's witnesses
stand in their rounds, rounds grow along ancestry and an event above a round
descends from a supermajority of its witnesses. -/
theorem RoundTable.Stacked.graded (hs : t.Stacked) (hG : ParentsFirst G)
    (hwit : ∀ {k c v}, Dict.get (t.witnesses k) c = some v → Auth G v c ∧ t.round v = k)
    (hmono : ∀ {x y}, Sees G x y → y ∈ ids G → t.round y ≤ t.round x)
    (hsupport : ∀ {k x}, x ∈ ids G → k < t.round x → supermajorityThreshold members.length ≤
      ((election G members t).votersWith k (Sees G x)).card) :
    Graded (election G members t) t.count where
  layered := {
    trans := fun hxy hyz => ReflTransGen.trans hxy hyz
    step := by
      intro k c v hw
      obtain ⟨hauth, hround⟩ := hwit hw
      exact hsupport hauth.mem (by rw [hround]; omega) }
  quorate := election_quorate
  bound := fun hw => wit_lt_count hs hw
  record := fameRecord_case hG hs
  refl := fun _ => ReflTransGen.refl
  mono := by
    intro k c v k' c' u hv hu hsees
    obtain ⟨-, rfl⟩ := hwit hv
    obtain ⟨hauth, rfl⟩ := hwit hu
    exact hmono hsees hauth.mem
  antisymm := by
    intro u v huv hvu
    rcases sees_iff.1 huv with rfl | huv
    · rfl
    · rcases sees_iff.1 hvu with rfl | hvu
      · rfl
      · exact absurd (TransGen.trans huv hvu) (hG.anc_irrefl u)
  inj := fun hc hc' => Auth.unique hG.nodup (hwit hc).1 (hwit hc').1

theorem TableInv.graded (h : TableInv G members G t) (hG : ParentsFirst G) :
    Graded (election G members t) t.count := by
  refine (h.stacked hG).graded hG ?_ (fun hs hy => round_mono h.rounds hs hy) ?_
  · intro k c v hw
    obtain ⟨-, hwit⟩ := (h.wits _ c v).1 hw
    exact ⟨hwit.auth, hwit.round⟩
  · intro k x hx hk
    refine (round_support hG h.rounds hx hk).trans (Finset.card_le_card fun c hc => ?_)
    obtain ⟨hm, u, hxu, hu⟩ := mem_seenWits.1 hc
    exact Election.mem_votersWith.2 ⟨List.mem_toFinset.2 hm, u,
      (h.wits k c u).2 ⟨hu.auth.mem, hu⟩, hxu.to_reflTransGen⟩

theorem ListInv.graded (h : ListInv G members G t) (hG : ParentsFirst G) :
    Graded (election G members t) t.count := by
  refine (h.stacked hG).graded hG ?_ (fun hs hy => RoundBy.mono _ h.rounds hs hy) ?_
  · intro k c v hw
    rw [h.wits] at hw
    exact firstAt_some hw
  · intro k x hx hk
    refine (h.support hG hx hk).trans (Finset.card_le_card fun c hc => ?_)
    obtain ⟨hm, u, hu, hxu⟩ := mem_seenFirst.1 hc
    refine Election.mem_votersWith.2 ⟨List.mem_toFinset.2 hm, u, ?_, hxu.to_reflTransGen⟩
    rw [← hu]
    exact h.wits k c

end Tables

/-- A supermajority of the members has a witness in round `k`. -/
def Full (E : Election String String) (k : Nat) : Prop :=
  E.threshold ≤ (E.votersWith k fun _ => True).card

section OneView
variable {E : Election String String} {n : Nat}

theorem full_of_sees {k : Nat} {P : String → Prop}
    (h : E.threshold ≤ (E.votersWith k P).card) : Full E k := by
  refine h.trans (Finset.card_le_card fun c hc => ?_)
  obtain ⟨hm, u, hu, -⟩ := Election.mem_votersWith.1 hc
  exact Election.mem_votersWith.2 ⟨hm, u, hu, trivial⟩

/-- Voters carry a side only in full rounds. -/
theorem full_of_carries {w : String} {r k : Nat} {b : Bool} (h : E.Carries w r k b) :
    Full E (r + 1 + k) := by
  refine h.trans (Finset.card_le_card fun c hc => ?_)
  obtain ⟨hm, hv⟩ := Election.mem_votesFor.1 hc
  obtain ⟨v, hw⟩ := Election.wit_of_vote (k := k) (by rw [hv]; rfl)
  exact Election.mem_votersWith.2 ⟨hm, v, hw, trivial⟩

theorem Receives.seen {x : String} {r : Nat} (h : Receives E n x r) :
    E.threshold ≤ (E.votersWith r (E.sees · x)).card := by
  rcases h with ⟨-, hc⟩ | ⟨-, hc⟩
  · exact hc.trans (Election.card_votersWith_mono fun _ _ _ hv => hv.2)
  · exact hc

variable (g : Graded E n)
include g

theorem Graded.exists_of_full {k : Nat} (h : Full E k) : ∃ c ∈ E.members, ∃ v, E.wit k c = some v := by
  obtain ⟨c, hc⟩ := Finset.card_pos.1 (lt_of_lt_of_le g.quorate.pos h)
  obtain ⟨hm, v, hv, -⟩ := Election.mem_votersWith.1 hc
  exact ⟨c, hm, v, hv⟩

/-- Every round below an occupied one is full. -/
theorem Graded.full_below : ∀ {j k c v}, k < j → E.wit j c = some v → Full E k := by
  intro j
  induction j with
  | zero => intro k c v hlt; omega
  | succ j ih =>
    intro k c v hlt hw
    have hj : Full E j := full_of_sees (g.layered.step hw)
    rcases Nat.eq_or_lt_of_le (Nat.le_of_lt_succ hlt) with rfl | hlt
    · exact hj
    · obtain ⟨c', -, v', hv'⟩ := g.exists_of_full hj
      exact ih hlt hv'

theorem Graded.full_le {j k : Nat} (hkj : k ≤ j) (hj : Full E j) : Full E k := by
  rcases Nat.eq_or_lt_of_le hkj with rfl | hlt
  · exact hj
  · obtain ⟨c, -, v, hv⟩ := g.exists_of_full hj
    exact g.full_below hlt hv

/-- Below a round that is not full nothing is decided. -/
theorem Graded.undecided {r : Nat} (h : ¬ Full E (r + 1)) (w : String) : ¬ Decided E n r w := by
  intro hd
  have hopen : ∀ k b, ¬ E.Carries w r k b := fun k b hc =>
    h (g.full_le (by omega) (full_of_carries hc))
  have hd' : (fameRecord E n r w).decided = true := hd
  cases g.record r w with
  | vote _ _ hc => obtain ⟨k, hc⟩ := hc; exact hopen k _ hc
  | coin _ _ hlong _ _ =>
    -- two voting rounds: the later one is above `r + 1`, which it fills
    obtain ⟨a, ha, b, hb, hab⟩ := Finset.one_lt_card.1 hlong
    simp only [votingRounds, Finset.mem_filter, Finset.mem_range] at ha hb
    obtain ⟨-, hra, ca, -, hca⟩ := ha
    obtain ⟨-, hrb, cb, -, hcb⟩ := hb
    obtain ⟨va, hva⟩ := Option.isSome_iff_exists.1 hca
    obtain ⟨vb, hvb⟩ := Option.isSome_iff_exists.1 hcb
    rcases Nat.lt_or_gt_of_ne hab with hlt | hlt
    · exact h (g.full_below (j := b) (by omega) hvb)
    · exact h (g.full_below (j := a) (by omega) hva)
  | pending hdec _ _ _ _ => rw [hdec] at hd'; cases hd'

/-- A witness that carries is settled by vote, with the side it carries. -/
theorem Graded.decided_of_carries {r k : Nat} {w : String} {b : Bool} (hc : E.Carries w r k b) :
    Decided E n r w ∧ (fameRecord E n r w).famous = b := by
  cases g.record r w with
  | vote hd _ hc' =>
    obtain ⟨k', hc'⟩ := hc'
    exact ⟨hd, Election.agree g.quorate hc' hc⟩
  | coin _ _ _ hopen => exact absurd hc (hopen k b)
  | pending _ _ _ _ hopen => exact absurd hc (hopen k b)

/-- Two rounds above a member voted, every witness has two voting rounds. -/
theorem Graded.two_votingRounds {r j : Nat} {c v : String} (hj : r + 2 ≤ j) (hm : c ∈ E.members)
    (hv : E.wit j c = some v) : 2 ≤ (votingRounds E n r).card := by
  obtain ⟨c1, hm1, v1, hv1⟩ := g.exists_of_full (g.full_below (k := r + 1) (by omega) hv)
  have hsub : ({r + 1, j} : Finset Nat) ⊆ votingRounds E n r := by
    intro k hk
    simp only [Finset.mem_insert, Finset.mem_singleton] at hk
    simp only [votingRounds, Finset.mem_filter, Finset.mem_range]
    rcases hk with rfl | rfl
    · exact ⟨g.bound hv1, by omega, c1, hm1, by rw [hv1]; rfl⟩
    · exact ⟨g.bound hv, by omega, c, hm, by rw [hv]; rfl⟩
  refine le_trans ?_ (Finset.card_le_card hsub)
  rw [Finset.card_pair (by omega)]

theorem Graded.decided_of_occupied {r : Nat} (hlong : 2 ≤ (votingRounds E n r).card) (w : String) :
    Decided E n r w := by
  cases g.record r w with
  | vote hd _ _ => exact hd
  | coin hd _ _ _ => exact hd
  | pending _ _ _ hshort _ => omega

/-- Two rounds below a full one, every witness is decided. -/
theorem Graded.decided_of_full {r : Nat} (hfull : Full E (r + 2)) (w : String) : Decided E n r w := by
  obtain ⟨c2, hm2, v2, hv2⟩ := g.exists_of_full hfull
  exact g.decided_of_occupied (g.two_votingRounds le_rfl hm2 hv2) w

/-- What a supermajority of some round sees is received, at the latest in
the newest full round. -/
theorem Graded.received_of_seen {x : String} {m : Nat}
    (hx : E.threshold ≤ (E.votersWith m (E.sees · x)).card) : ∃ r, received E n x = some r := by
  classical
  have hm : Full E m := full_of_sees hx
  have hbound : ∀ k, Full E k → k ≤ n := by
    intro k hk
    obtain ⟨c, -, v, hv⟩ := g.exists_of_full hk
    exact (g.bound hv).le
  obtain ⟨K, hK, hmax⟩ : ∃ K, Full E K ∧ ∀ k, Full E k → k ≤ K := by
    refine ⟨Nat.findGreatest (Full E) n, Nat.findGreatest_spec (hbound m hm) hm, fun k hk => ?_⟩
    exact Nat.le_findGreatest (hbound k hk) hk
  have hseen : E.threshold ≤ (E.votersWith K (E.sees · x)).card := by
    rcases Nat.eq_or_lt_of_le (hmax m hm) with rfl | hlt
    · exact hx
    · exact hK.trans (Election.card_votersWith_mono fun c v hv _ => g.layered.seen_above g.quorate hx hlt hv)
  have hrec : Receives E n x K := .inr ⟨fun c w _ => g.undecided (fun hf => by
    have := hmax _ hf; omega) w, hseen⟩
  obtain ⟨c, -, v, hv⟩ := g.exists_of_full hK
  cases hr : received E n x with
  | some r => exact ⟨r, rfl⟩
  | none => exact absurd hrec (received_eq_none.1 hr K (g.bound hv))

/-- In a round whose witnesses are decided the famous ones receive. -/
theorem Graded.receives_decided {r : Nat} {x : String} (hdec : ∀ c w, E.wit r c = some w → Decided E n r w) :
    Receives E n x r ↔ E.threshold ≤
      (E.votersWith r fun v => (fameRecord E n r v).famous = true ∧ E.sees v x).card := by
  constructor
  · rintro (⟨-, h⟩ | ⟨hund, h⟩)
    · exact h
    · obtain ⟨c, v, hv, -⟩ := votersWith_pos g.quorate h
      exact absurd (hdec c v hv) (hund c v hv)
  · exact fun h => .inl ⟨hdec, h⟩

end OneView
/-! ## Two views -/

/-- `E'` on the events `V'` grows out of `E` on the events `V`. -/
structure Growth (E E' : Election String String) (n n' : Nat) (V V' : String → Prop) : Prop where
  ext : Election.Extends E E'
  small : Graded E n
  large : Graded E' n'
  closed : ∀ {k c v x}, E.wit k c = some v → E'.sees v x → V' x → V x
  voter : ∀ {k c v}, E'.wit k c = some v → V' v

/-- A witness decided on the smaller view is decided alike on the larger one;
and of a round that had one full round above it and fewer than two voting
rounds, the larger view decides no witness but by a vote. -/
structure FameKept (E E' : Election String String) (n n' : Nat) : Prop where
  kept : ∀ {r c w}, E.wit r c = some w → Decided E n r w →
    Decided E' n' r w ∧ (fameRecord E' n' r w).famous = (fameRecord E n r w).famous
  voted : ∀ {r c w}, Full E (r + 1) → (votingRounds E n r).card < 2 → E'.wit r c = some w →
    Decided E' n' r w → ∃ k, E'.Carries w r k (fameRecord E' n' r w).famous

/-- Every witness of round `r` is decided, and the next round is full. -/
structure Settled (E : Election String String) (n r : Nat) : Prop where
  decided : ∀ c w, E.wit r c = some w → Decided E n r w
  next : Full E (r + 1)

theorem Graded.settled {E : Election String String} {n r : Nat} (g : Graded E n)
    (h : Full E (r + 2)) : Settled E n r :=
  ⟨fun _ w _ => g.decided_of_full h w, g.full_le (by omega) h⟩

section TwoViews
variable {E E' : Election String String} {n n' : Nat} {V V' : String → Prop}
  (g : Growth E E' n n' V V')
include g

/-- A witness that comes late is voted down by the old voters of the next
round. -/
theorem Growth.late_witness {r : Nat} {c w : String} (hfull : Full E (r + 1))
    (hw : E'.wit r c = some w) (hnew : E.wit r c ≠ some w) : E'.Carries w r 0 false := by
  unfold Election.Carries
  rw [g.ext.threshold]
  refine hfull.trans (Finset.card_le_card fun c' hc' => ?_)
  obtain ⟨hm, v, hv, -⟩ := Election.mem_votersWith.1 hc'
  have hm' : c' ∈ E'.members := g.ext.members ▸ hm
  have hblind : ¬ E'.sees v w := fun hs => hnew (g.ext.closed hv hw hs)
  refine Election.mem_votesFor.2 ⟨hm', ?_⟩
  unfold Election.vote
  rw [if_pos hm', g.ext.wit hv]
  simp [hblind]

theorem Growth.decided (hk : FameKept E E' n n') {r : Nat} (hs : Settled E n r) :
    ∀ c w, E'.wit r c = some w → Decided E' n' r w := by
  intro c w hw
  by_cases hold : E.wit r c = some w
  · exact (hk.kept hold (hs.decided c w hold)).1
  · exact (g.large.decided_of_carries (g.late_witness hs.next hw hold)).1

/-- The famous witnesses of a settled round are the same ever after. -/
theorem Growth.famous_iff (hk : FameKept E E' n n') {r : Nat} (hs : Settled E n r) {c w : String} :
    (E'.wit r c = some w ∧ (fameRecord E' n' r w).famous = true) ↔
      (E.wit r c = some w ∧ (fameRecord E n r w).famous = true) := by
  constructor
  · rintro ⟨hw, hf⟩
    by_cases hw' : E.wit r c = some w
    · rw [(hk.kept hw' (hs.decided c w hw')).2] at hf
      exact ⟨hw', hf⟩
    · have := (g.large.decided_of_carries (g.late_witness hs.next hw hw')).2
      rw [this] at hf; cases hf
  · rintro ⟨hw, hf⟩
    rw [← (hk.kept hw (hs.decided c w hw)).2] at hf
    exact ⟨g.ext.wit hw, hf⟩

/-- A settled round receives the same old events before and after. -/
theorem Growth.receives_iff (hk : FameKept E E' n n') {r : Nat} (hs : Settled E n r) {x : String} :
    Receives E n x r ↔ Receives E' n' x r := by
  rw [g.small.receives_decided hs.decided, g.large.receives_decided (g.decided hk hs), g.ext.threshold]
  have hset : (E.votersWith r fun v => (fameRecord E n r v).famous = true ∧ E.sees v x) =
      E'.votersWith r fun v => (fameRecord E' n' r v).famous = true ∧ E'.sees v x := by
    ext c
    rw [Election.mem_votersWith, Election.mem_votersWith, g.ext.members]
    refine and_congr_right fun _ => exists_congr fun v => ?_
    constructor
    · rintro ⟨hw, hf, hx⟩
      obtain ⟨hw', hf'⟩ := (g.famous_iff hk hs).2 ⟨hw, hf⟩
      exact ⟨hw', hf', (g.ext.sees hw x).1 hx⟩
    · rintro ⟨hw, hf, hx⟩
      obtain ⟨hw', hf'⟩ := (g.famous_iff hk hs).1 ⟨hw, hf⟩
      exact ⟨hw', hf', (g.ext.sees hw' x).2 hx⟩
  rw [hset]

/-- A settled round receives no event that was not there. -/
theorem Growth.old_of_receives (hk : FameKept E E' n n') {r : Nat} (hs : Settled E n r) {x : String}
    (hx : V' x) (h : Receives E' n' x r) : V x := by
  rw [g.large.receives_decided (g.decided hk hs)] at h
  obtain ⟨c, v, hv, hf, hsx⟩ := votersWith_pos g.large.quorate h
  exact g.closed ((g.famous_iff hk hs).1 ⟨hv, hf⟩).1 hsx hx

/-- **Final rounds.** Received rounds two or more below a full round are the
same before and after. -/
theorem Growth.received_low_iff (hk : FameKept E E' n n') {m r : Nat} (hm : Full E m) (hr : r + 2 ≤ m)
    {x : String} (hx : V' x) :
    received E' n' x = some r ↔ V x ∧ received E n x = some r := by
  have hs : ∀ r' ≤ r, Settled E n r' := fun r' hr' => g.small.settled (g.small.full_le (by omega) hm)
  have hiff : ∀ r' ≤ r, (Receives E n x r' ↔ Receives E' n' x r') := fun r' hr' =>
    g.receives_iff hk (hs r' hr')
  have hbound : Receives E n x r → r < n := by
    intro h
    obtain ⟨c, v, hv⟩ := h.exists_witness g.small.quorate
    exact g.small.bound hv
  have hbound' : Receives E' n' x r → r < n' := by
    intro h
    obtain ⟨c, v, hv⟩ := h.exists_witness g.large.quorate
    exact g.large.bound hv
  rw [received_eq_some, received_eq_some]
  constructor
  · rintro ⟨-, h, hmin⟩
    have h' := (hiff r le_rfl).2 h
    exact ⟨g.old_of_receives hk (hs r le_rfl) hx h, hbound h', h', fun r' hr' hrec =>
      hmin r' hr' ((hiff r' hr'.le).1 hrec)⟩
  · rintro ⟨-, -, h, hmin⟩
    have h' := (hiff r le_rfl).1 h
    exact ⟨hbound' h', h', fun r' hr' hrec => hmin r' hr' ((hiff r' hr'.le).2 hrec)⟩

/-- With a threshold of one, a single voter settles the round below. -/
theorem Growth.settled_of_one (hT : E.threshold = 1) {r : Nat} (hnext : Full E (r + 1)) :
    Settled E n r := by
  refine ⟨fun c w _ => ?_, hnext⟩
  obtain ⟨c0, hm, v, hv⟩ := g.small.exists_of_full hnext
  classical
  have hcarries : E.Carries w r 0 (decide (E.sees v w)) := by
    unfold Election.Carries
    rw [hT]
    refine Finset.card_pos.2 ⟨c0, Election.mem_votesFor.2 ⟨hm, ?_⟩⟩
    unfold Election.vote
    rw [if_pos hm, hv]
    simp
  exact (g.small.decided_of_carries hcarries).1

omit g in
/-- Among the famous witnesses of a round there is one that no other of them
sees. -/
theorem Graded.exists_top {E : Election String String} {n : Nat} (g : Graded E n) {r : Nat}
    {P : String → Prop} (h : (E.votersWith r P).Nonempty) :
    ∃ c ∈ E.members, ∃ z, E.wit r c = some z ∧ P z ∧
      ∀ c' u, c' ∈ E.members → E.wit r c' = some u → P u → E.sees u z → c' = c := by
  classical
  -- one seen by the fewest
  obtain ⟨c, hc, hmin⟩ := Finset.exists_min_image (E.votersWith r P)
    (fun c => ((E.wit r c).elim ∅ fun z => E.votersWith r fun u => P u ∧ E.sees u z).card) h
  obtain ⟨hm, z, hz, hP⟩ := Election.mem_votersWith.1 hc
  refine ⟨c, hm, z, hz, hP, fun c' u hm' hu hPu hs => ?_⟩
  by_contra hne
  have hle := hmin c' (Election.mem_votersWith.2 ⟨hm', u, hu, hPu⟩)
  rw [hz, hu] at hle
  simp only [Option.elim_some] at hle
  refine absurd (Finset.card_lt_card ⟨?_, ?_⟩) (Nat.not_lt.2 hle)
  · intro d hd
    obtain ⟨hdm, y, hy, hPy, hyu⟩ := Election.mem_votersWith.1 hd
    exact Election.mem_votersWith.2 ⟨hdm, y, hy, hPy, g.layered.trans hyu hs⟩
  · intro hsub
    -- `z` sees itself, but not `u`, which sees it
    obtain ⟨-, y, hy, -, hyu⟩ := Election.mem_votersWith.1
      (hsub (Election.mem_votersWith.2 ⟨hm, z, hz, hP, g.refl z⟩))
    obtain rfl : z = y := Option.some.inj (hz.symm.trans hy)
    obtain rfl := g.antisymm hyu hs
    exact hne (g.inj hu hz)

/-- In a round that receives by witnesses famous by vote, the topmost of them
is received later. -/
theorem Growth.exists_later {r : Nat} (hT : 2 ≤ E'.threshold)
    (hdec : ∀ c w, E'.wit r c = some w → Decided E' n' r w)
    (hvoted : ∀ c w, E'.wit r c = some w → ∃ k, E'.Carries w r k (fameRecord E' n' r w).famous) {x : String}
    (hcnt : E'.threshold ≤
      (E'.votersWith r fun v => (fameRecord E' n' r v).famous = true ∧ E'.sees v x).card) :
    ∃ y, V' y ∧ ∃ m', r + 1 ≤ m' ∧ received E' n' y = some m' := by
  have hne : (E'.votersWith r fun v => (fameRecord E' n' r v).famous = true).Nonempty := by
    obtain ⟨c, hc⟩ := Finset.card_pos.1 (lt_of_lt_of_le g.large.quorate.pos hcnt)
    obtain ⟨hm, v, hv, hf, -⟩ := Election.mem_votersWith.1 hc
    exact ⟨c, Election.mem_votersWith.2 ⟨hm, v, hv, hf⟩⟩
  obtain ⟨c, -, z, hz, hfz, htop⟩ := g.large.exists_top hne
  -- famous by vote: a quorum of the next round sees it, so it is received
  obtain ⟨k, hk⟩ := hvoted c z hz
  rw [hfz] at hk
  have hseen : E'.threshold ≤ (E'.votersWith (r + 1) (E'.sees · z)).card :=
    (Election.quorum_of_yes g.large.quorate hk).trans
      (Finset.card_le_card fun _ hc => Election.vote_zero_true hc)
  obtain ⟨m', hm'⟩ := g.large.received_of_seen hseen
  refine ⟨z, g.voter hz, m', ?_, hm'⟩
  obtain ⟨-, hrec, -⟩ := received_eq_some.1 hm'
  by_contra hlt
  rcases Nat.lt_or_eq_of_le (show m' ≤ r by omega) with hlt | rfl
  · -- an earlier round does not see a witness of round `r`
    obtain ⟨c', v, hv, hs⟩ := votersWith_pos g.large.quorate hrec.seen
    have := g.large.mono hv hz hs
    omega
  · rcases hrec with ⟨-, hc⟩ | ⟨hund, -⟩
    · have hsub : (E'.votersWith m' fun v => (fameRecord E' n' m' v).famous = true ∧ E'.sees v z) ⊆
          {c} := by
        intro c' hc'
        obtain ⟨hm, u, hu, hf, hs⟩ := Election.mem_votersWith.1 hc'
        exact Finset.mem_singleton.2 (htop c' u hm hu hf hs)
      have := Finset.card_le_card hsub
      rw [Finset.card_singleton] at this
      omega
    · exact hund c z hz (hdec c z hz)

/-- The newest received round never falls. -/
theorem Growth.exists_received_ge (hk : FameKept E E' n n') {x : String} (hxV : V' x) {m : Nat}
    (hx : received E n x = some m) :
    ∃ y, V' y ∧ ∃ m', m ≤ m' ∧ received E' n' y = some m' := by
  obtain ⟨-, hrec, hmin⟩ := received_eq_some.1 hx
  have hm : Full E m := full_of_sees hrec.seen
  have hseen' : E'.threshold ≤ (E'.votersWith m (E'.sees · x)).card := by
    rw [g.ext.threshold]
    exact hrec.seen.trans (g.ext.card_sees_le m x)
  obtain ⟨r', hr'⟩ := g.large.received_of_seen hseen'
  by_cases hle : m ≤ r'
  · exact ⟨x, hxV, r', hle, hr'⟩
  -- the event moved down, into the one round below `m` that was not settled
  have hlt : r' < m := Nat.not_le.1 hle
  obtain ⟨-, hrec', -⟩ := received_eq_some.1 hr'
  have hopen : ¬ Settled E n r' := fun hs => hmin r' hlt ((g.receives_iff hk hs).2 hrec')
  have hmr : m = r' + 1 := by
    by_contra hne
    exact hopen (g.small.settled (g.small.full_le (by omega) hm))
  subst hmr
  rcases hrec' with ⟨hdec', hcnt'⟩ | ⟨hund', hcnt'⟩
  · -- the round had been open, so the larger view decides it by votes
    have hshort : (votingRounds E n r').card < 2 := by
      by_contra hlong
      exact hopen ⟨fun c w _ => g.small.decided_of_occupied (Nat.not_lt.1 hlong) w, hm⟩
    refine g.exists_later ?_ hdec' (fun c w hw => hk.voted hm hshort hw (hdec' c w hw)) hcnt'
    by_contra hT
    have hpos := g.small.quorate.pos
    rw [g.ext.threshold] at hT
    exact hopen (g.settled_of_one (by omega) hm)
  · -- nothing settled afterwards: no late witness, and nothing settled before
    exfalso
    have hold : ∀ c w, E'.wit r' c = some w → E.wit r' c = some w := by
      intro c w hw
      by_contra hnew
      exact hund' c w hw (g.large.decided_of_carries (g.late_witness hm hw hnew)).1
    have hund : ∀ c w, E.wit r' c = some w → ¬ Decided E n r' w :=
      fun c w hw hd => hund' c w (g.ext.wit hw) (hk.kept hw hd).1
    refine hmin r' hlt (.inr ⟨hund, ?_⟩)
    rw [← g.ext.threshold]
    refine hcnt'.trans (Finset.card_le_card fun c hc => ?_)
    obtain ⟨hcm, v, hv, hs⟩ := Election.mem_votersWith.1 hc
    have hv' := hold c v hv
    exact Election.mem_votersWith.2 ⟨g.ext.members ▸ hcm, v, hv', (g.ext.sees hv' x).2 hs⟩

end TwoViews
end Mdrj.L2
