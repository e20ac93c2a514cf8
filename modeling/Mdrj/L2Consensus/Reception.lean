import Mdrj.L2Consensus.RoundLaws
import Mdrj.L2Consensus.Views

/-!
# Which events are received

`L2Consensus.RoundLaws` says what a received round stands for; here it is which
events get one. A round that is decided may pass an event by, although most of
its witnesses descend from the event, when too few of them are famous; the
event is then left to the rounds above.

Results:
* `recompute_receives_iff`: an event is received exactly when in some round a
  supermajority of the members has a witness that is the event or descends
  from it.
* `received_when_adopted`: without forks, an event is received once each of a
  supermajority of the members has an event that descends from it and, later, a
  witness of one common round.
* `received_stays`: without forks, what is received in a view is received in
  every larger one, if perhaps in another round.
-/
namespace Mdrj.L2
open Mdrj.Core Mdrj.L1 Relation

/-- In round `k` a supermajority of the members has a witness that is `x` or
descends from it. -/
def HeardIn (G : List Event) (members : List String) (states : List ConsensusState) (k : Nat) (x : String) : Prop :=
  ∃ heard : Finset String, heard ⊆ members.toFinset ∧ 2 * members.length / 3 + 1 ≤ heard.card ∧
    ∀ c ∈ heard, ∃ w, IsWitness states k c w ∧ Sees G w.eventId x

/-- Member `c` has an event below round `k` that is `x` or descends from it,
and a witness of round `k`. -/
def Adopts (G : List Event) (states : List ConsensusState) (k : Nat) (x c : String) : Prop :=
  (∃ s ∈ states, s.creator = c ∧ s.round < k ∧ Sees G s.eventId x) ∧ ∃ w, IsWitness states k c w

variable {G G' : List Event} {members : List String} {pathMeta : Dict String (List Hop)} {t t' : RoundTable}
  {states : List ConsensusState}

/-! ## The election's account -/

theorem threshold_eq (G : List Event) (members : List String) (t : RoundTable) :
    (election G members t).threshold = 2 * members.length / 3 + 1 := by
  show max 1 (2 * members.length / 3 + 1) = _
  omega

/-- The election receives what a supermajority of one round's witnesses sees,
and nothing else. -/
theorem Graded.received_iff {E : Election String String} {n : Nat} (g : Graded E n) {x : String} :
    (∃ r, received E n x = some r) ↔ ∃ k, E.threshold ≤ (E.votersWith k (E.sees · x)).card := by
  constructor
  · rintro ⟨r, hr⟩
    exact ⟨r, (received_eq_some.1 hr).2.1.seen⟩
  · rintro ⟨k, hk⟩
    exact g.received_of_seen hk

section Pass
variable (P : PassOn G members pathMeta t states)
include P

theorem PassOn.heardIn_iff {k : Nat} {x : String} : HeardIn G members states k x ↔
    (election G members t).threshold ≤ ((election G members t).votersWith k (Sees G · x)).card := by
  rw [threshold_eq]
  constructor
  · rintro ⟨heard, hsub, hcard, hheard⟩
    refine hcard.trans (Finset.card_le_card fun c hc => ?_)
    obtain ⟨w, hw, hsees⟩ := hheard c hc
    exact Election.mem_votersWith.2 ⟨hsub hc, w.eventId, P.wit_of_isWitness hw, hsees⟩
  · intro hcard
    refine ⟨_, fun c hc => (Election.mem_votersWith.1 hc).1, hcard, fun c hc => ?_⟩
    obtain ⟨-, y, hy, hsees⟩ := Election.mem_votersWith.1 hc
    obtain ⟨w, hw, rfl⟩ := P.isWitness_of_wit hy
    exact ⟨w, hw, hsees⟩

theorem PassOn.received_iff {s : ConsensusState} (hs : s ∈ states) :
    s.roundReceived.isSome = true ↔ ∃ k, HeardIn G members states k s.eventId := by
  obtain ⟨e, he, rfl⟩ := P.mem_iff.1 hs
  have g := P.table.graded P.parentsFirst
  rw [Option.isSome_iff_exists]
  exact g.received_iff.trans (exists_congr fun k => P.heardIn_iff.symm)

/-- Without forks, the witness that a member has above an event of its own
descends from it. -/
theorem PassOn.adopted (hf : ForkFree G) {k : Nat} {x c : String} (h : Adopts G states k x c) :
    ∃ w, IsWitness states k c w ∧ Sees G w.eventId x := by
  obtain ⟨⟨s, hs, rfl, hlt, hsees⟩, w, hw⟩ := h
  refine ⟨w, hw, ReflTransGen.trans ?_ hsees⟩
  obtain ⟨e, he, rfl⟩ := P.mem_iff.1 hs
  obtain ⟨e', he', rfl⟩ := P.mem_iff.1 hw.mem
  have hround : t.round e'.id = k := hw.round
  have hbelow : t.round e.id < k := hlt
  rcases hf e' he' e he hw.creator with heq | hanc | hanc
  · rw [heq] at hround
    omega
  · exact hanc.to_reflTransGen
  · -- the event cannot descend from a witness of a round above its own
    have hle := RoundBy.mono _ P.table.rounds hanc.to_reflTransGen (List.mem_map_of_mem he')
    omega

end Pass

/-! ## The results -/

/-- **Which events are received.** In a pass on a list with the parents first,
forks or not, an event is received if and only if in some round a supermajority
of the members has a witness that is the event or descends from it. -/
theorem recompute_receives_iff (hG : ParentsFirst G) (engine : ConsensusEngine)
    (membership : List MembershipEntry) (pathMeta : Dict String (List Hop)) :
    ∃ states, engine.recompute G membership pathMeta = some states ∧ ∀ s ∈ states,
      (s.roundReceived.isSome = true ↔
        ∃ k, HeardIn G (engine.normalizeMembership membership) states k s.eventId) := by
  obtain ⟨t, states, P, hrun⟩ := recompute_passOn hG engine membership pathMeta
  exact ⟨states, hrun, fun s hs => P.received_iff hs⟩

theorem recompute_receives_iff_forked :
    ∃ states, (ConsensusEngine.mk "a").recompute forkedChain [⟨"a", "", "node", true⟩] [] = some states ∧
      ∀ s ∈ states, (s.roundReceived.isSome = true ↔ ∃ k, HeardIn forkedChain ["a"] states k s.eventId) :=
  recompute_receives_iff (by decide) ⟨"a"⟩ [⟨"a", "", "node", true⟩] []

/-- Round zero of `retossed` is decided and passes `d0` by, which three of its
four witnesses descend from: one of the three is not famous. -/
example : ((ConsensusEngine.mk "a").recompute retossed fourMembers []).map (fun states =>
    (states.filter fun s => s.isWitness && s.round = 0).map fun s =>
      (s.eventId, s.fameDecided, s.isFamousWitness, s.roundReceived)) =
    some [("c0", true, true, some 0), ("a0", true, true, some 1), ("d0", true, true, some 1),
      ("b0", true, false, some 2)] := by
  decide +kernel

/-- **What the members have adopted is received.** In a pass on a list with the
parents first and without forks, an event is received if, for some round, each
of a supermajority of the members has an event below the round that descends
from it, and a witness of the round. -/
theorem received_when_adopted (hG : ParentsFirst G) (hf : ForkFree G) (engine : ConsensusEngine)
    (membership : List MembershipEntry) (pathMeta : Dict String (List Hop)) :
    ∃ states, engine.recompute G membership pathMeta = some states ∧
      ∀ (k : Nat) (adopters : Finset String), adopters ⊆ (engine.normalizeMembership membership).toFinset →
        2 * (engine.normalizeMembership membership).length / 3 + 1 ≤ adopters.card →
        ∀ s ∈ states, (∀ c ∈ adopters, Adopts G states k s.eventId c) → s.roundReceived.isSome = true := by
  obtain ⟨t, states, P, hrun⟩ := recompute_passOn hG engine membership pathMeta
  refine ⟨states, hrun, fun k adopters hsub hcard s hs hadopt => ?_⟩
  exact (P.received_iff hs).2 ⟨k, adopters, hsub, hcard, fun c hc => P.adopted hf (hadopt c hc)⟩

/-- `a0`, `c1` and `d0` carry `d0` below round two, where `a`, `c` and `d` have
witnesses. -/
theorem received_when_adopted_retossed :
    ∃ states, (ConsensusEngine.mk "a").recompute retossed fourMembers [] = some states ∧
      (∀ c ∈ ({"a", "c", "d"} : Finset String), Adopts retossed states 2 "d0" c) ∧
      ∃ s ∈ states, s.eventId = "d0" ∧ s.roundReceived.isSome = true := by
  obtain ⟨states, hrun, hreceived⟩ := received_when_adopted retossed_parentsFirst retossed_forkFree ⟨"a"⟩
    fourMembers []
  have hrows : ∀ row ∈ [("a0", "a", 0, true), ("c1", "c", 1, true), ("d0", "d", 0, true), ("a3", "a", 2, true),
      ("c2", "c", 2, true), ("d1", "d", 2, true)], ∃ s ∈ states,
      (s.eventId, s.creator, s.round, s.isWitness) = row := by
    have hall : ((ConsensusEngine.mk "a").recompute retossed fourMembers []).any (fun states =>
        [("a0", "a", 0, true), ("c1", "c", 1, true), ("d0", "d", 0, true), ("a3", "a", 2, true),
          ("c2", "c", 2, true), ("d1", "d", 2, true)].all fun row =>
            states.any fun s => (s.eventId, s.creator, s.round, s.isWitness) = row) = true := by
      decide +kernel
    rw [hrun] at hall
    intro row hrow
    obtain ⟨s, hs, heq⟩ := List.any_eq_true.1 (List.all_eq_true.1 hall row hrow)
    exact ⟨s, hs, of_decide_eq_true heq⟩
  -- a member that has `x` above `d0` and the witness `w` of round two adopts `d0`
  have hadopt : ∀ {x c w : String} {k : Nat} {flag : Bool},
      (∃ s ∈ states, (s.eventId, s.creator, s.round, s.isWitness) = (x, c, k, flag)) →
      (∃ s ∈ states, (s.eventId, s.creator, s.round, s.isWitness) = (w, c, 2, true)) → k < 2 →
      Sees retossed x "d0" → Adopts retossed states 2 "d0" c := by
    rintro x c w k flag ⟨s, hs, heq⟩ ⟨s', hs', heq'⟩ hk hsees
    simp only [Prod.mk.injEq] at heq heq'
    obtain ⟨rfl, hc, rfl, -⟩ := heq
    obtain ⟨-, hc', hround, hflag⟩ := heq'
    exact ⟨⟨s, hs, hc, hk, hsees⟩, s', hs', hflag, hc', hround⟩
  have hsees : ∀ x, "d0" ∈ ancestors retossed x → Sees retossed x "d0" := fun x hx =>
    sees_iff.2 (.inr ((mem_ancestors retossed_parentsFirst).1 hx))
  have hall : ∀ c ∈ ({"a", "c", "d"} : Finset String), Adopts retossed states 2 "d0" c := by
    intro c hc
    simp only [Finset.mem_insert, Finset.mem_singleton] at hc
    rcases hc with rfl | rfl | rfl
    · exact hadopt (hrows ("a0", "a", 0, true) (by simp)) (hrows ("a3", "a", 2, true) (by simp)) (by omega)
        (hsees "a0" (by decide +kernel))
    · exact hadopt (hrows ("c1", "c", 1, true) (by simp)) (hrows ("c2", "c", 2, true) (by simp)) (by omega)
        (hsees "c1" (by decide +kernel))
    · exact hadopt (hrows ("d0", "d", 0, true) (by simp)) (hrows ("d1", "d", 2, true) (by simp)) (by omega) .refl
  obtain ⟨s, hs, heq⟩ := hrows ("d0", "d", 0, true) (by simp)
  simp only [Prod.mk.injEq] at heq
  refine ⟨states, hrun, hall, s, hs, heq.1, ?_⟩
  refine hreceived 2 {"a", "c", "d"} (by decide) (by decide) s hs ?_
  rw [heq.1]
  exact hall

/-- **Received events stay received.** In the passes on two views without forks,
one of which holds the other, an event that the smaller one gives a received
round has one in the larger. -/
theorem received_stays (hG : ParentsFirst G) (hG' : ParentsFirst G') (hf' : ForkFree G') (hv : View G G')
    {engine engine' : ConsensusEngine} {membership : List MembershipEntry}
    (hm : SameMembers engine engine' membership) (pathMeta pathMeta' : Dict String (List Hop)) :
    ∀ e ∈ G, ∃ s s', lookupState (engine.recompute G membership pathMeta) e.id = some s ∧
      lookupState (engine'.recompute G' membership pathMeta') e.id = some s' ∧
      (s.roundReceived.isSome = true → s'.roundReceived.isSome = true) := by
  intro e he
  have hf := hv.forkFree hG'.nodup hf'
  obtain ⟨t, h, hres⟩ := recompute_lookup hG hf engine membership pathMeta
  obtain ⟨t', h', hres'⟩ := recompute_lookup hG' hf' engine' membership pathMeta'
  rw [← hm.normalize_eq] at h' hres'
  obtain ⟨e', he', hs⟩ := hv.sub e he
  refine ⟨_, _, (hres e.id _).2 ⟨e, he, rfl, rfl⟩, (hres' e.id _).2 ⟨e', he', static_id hs, rfl⟩, fun hsome => ?_⟩
  obtain ⟨r, hr⟩ := Option.isSome_iff_exists.1 hsome
  have hseen := (received_eq_some.1 hr).2.1.seen
  -- the witnesses that see the event in the smaller view see it in the larger
  have hseen' := hseen.trans ((hv.election_extends hG hG' h h').card_sees_le r e.id)
  rw [← static_id hs] at hseen'
  exact Option.isSome_iff_exists.2 ((h'.graded hG').received_of_seen hseen')

theorem received_stays_retossed :
    ∃ s s', lookupState ((ConsensusEngine.mk "a").recompute (retossed.take 11) fourMembers []) "d0" = some s ∧
      lookupState ((ConsensusEngine.mk "d").recompute retossed fourMembers []) "d0" = some s' ∧
      (s.roundReceived.isSome = true → s'.roundReceived.isSome = true) :=
  received_stays (by decide +kernel) retossed_parentsFirst retossed_forkFree (retossed_view 11)
    (.inr ⟨by decide, by decide⟩) [] [] (Event.linked "d0" "d" ["c0"]) (by simp [retossed])

end Mdrj.L2
