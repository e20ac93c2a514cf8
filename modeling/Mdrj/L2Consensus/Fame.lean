import Mathlib.Data.List.Fold
import Mathlib.Order.Lattice.Nat
import Mdrj.Core.Election
import Mdrj.L2Consensus.Resolver
import Mdrj.L2Consensus.Rounds

/-!
# Fame is an election

The round table of a pass is an `Election`: the witness of a creator in a
round is its voter there, and seeing is ancestry. The dictionaries of
`_fame_vote_history_and_decisions` hold the votes of that election
(`firstVotes_yields`, `laterVotes_yields`, `voteHistory_yields`), so a
witness's fame record is a function of the election alone (`fameRecord`,
`fameDecisions_computes`): neither the order of the dictionaries nor the
cache shows in it.
-/
namespace Mdrj.L2
open Mdrj.Core Mdrj.L1 Relation

variable {G : List Event} {members : List String} {t : RoundTable}

def election (G : List Event) (members : List String) (t : RoundTable) :
    Election String String where
  members := members.toFinset
  threshold := supermajorityThreshold members.length
  wit := fun r c => Dict.get (t.witnesses r) c
  sees := Sees G

theorem threshold_meet (n : Nat) : n < 2 * supermajorityThreshold n := by
  unfold supermajorityThreshold; omega

theorem election_quorate : (election G members t).Quorate where
  pos := threshold_pos _
  meet := lt_of_le_of_lt (List.toFinset_card_le members) (threshold_meet _)

/-! ## The votes of one round -/

/-- The dictionary holds exactly the votes `f`. -/
structure IsBallot (f : String → Option (Option Bool)) (votes : Votes) : Prop where
  nodup : (Dict.keys votes).Nodup
  get : ∀ c, Dict.get votes c = f c

/-- A comprehension over a round's witnesses that keeps the members. -/
theorem isBallot_filterMap (members : List String) {d : Dict String String} (hd : (Dict.keys d).Nodup)
    (f : String → Option Bool) :
    IsBallot (fun c => if c ∈ members then (Dict.get d c).map f else none)
      (d.filterMap fun p => if p.1 ∈ members then some (p.1, f p.2) else none) := by
  have he : (fun p : String × String => if p.1 ∈ members then some (p.1, f p.2) else none) =
      fun p => (if p.1 ∈ members then some (f p.2) else none).map fun b => (p.1, b) := by
    funext p; split <;> rfl
  rw [he]
  refine ⟨hd.sublist (Dict.keys_filterMap_sublist d _), fun c => ?_⟩
  rw [Dict.get_filterMap hd fun p => if p.1 ∈ members then some (f p.2) else none]
  by_cases hc : c ∈ members
  · simp only [hc, if_true]
    cases Dict.get d c <;> rfl
  · simp only [hc, if_false]
    cases Dict.get d c <;> rfl

theorem firstVotes_yields (hG : ParentsFirst G) (h : t.Stacked) (w : String)
    (r : Nat) : Yields (CacheOk G) (firstVotes (passCtx G members) (t.witnesses (r + 1)) w)
      (IsBallot ((election G members t).vote w r 0)) := by
  classical
  refine Yields.mono (Computes.collectM (g := fun p => if p.1 ∈ members then
    some (p.1, some (decide (Sees G p.2 w))) else none) ?_) ?_
  · intro p _
    show Computes _ (if p.1 ∈ members then _ else _) _
    split
    · exact (canSee_computes hG p.2 w).bind (Computes.pure _)
    · exact Computes.pure _
  · rintro _ rfl
    have hb := isBallot_filterMap members (h.nodup (r + 1))
      fun v => some (decide (Sees G v w))
    refine ⟨hb.nodup, fun c => (hb.get c).trans ?_⟩
    simp only [Election.vote, election, List.mem_toFinset]
    congr

theorem tally_eq {threshold : Nat} {visible : List Bool} {E : Election String String}
    {votes : String → Option (Option Bool)} {k : Nat} {v : String}
    (ht : threshold = E.threshold) (hc : ∀ b, visible.count b = (E.ballots votes k v b).card) :
    tally threshold visible = E.tally votes k v := by
  unfold tally Election.tally
  rw [hc, hc, ht]

open Classical in
/-- A member's yes or no in the round before, if `v` sees its witness there. -/
noncomputable def visibleVote (G : List Event) (members : List String) (t : RoundTable) (k : Nat) (v : String)
    (p : String × Option Bool) : Option Bool :=
  match p.2, Dict.get (t.witnesses k) p.1 with
  | some vote, some u => if p.1 ∈ members ∧ Sees G v u then some vote else none
  | _, _ => none

theorem visibleVote_eq_some {k : Nat} {v c : String} {vote : Option Bool} {b : Bool} :
    visibleVote G members t k v (c, vote) = some b ↔
      vote = some b ∧ c ∈ members ∧ ∃ u, Dict.get (t.witnesses k) c = some u ∧ Sees G v u := by
  unfold visibleVote
  cases vote with
  | none => simp
  | some vote =>
    cases Dict.get (t.witnesses k) c with
    | none => simp
    | some u =>
      simp only [Option.ite_none_right_eq_some, Option.some_inj]
      constructor
      · rintro ⟨⟨hc, hs⟩, hb⟩
        exact ⟨hb, hc, u, rfl, hs⟩
      · rintro ⟨hb, hc, _, rfl, hs⟩
        exact ⟨⟨hc, hs⟩, hb⟩

theorem visibleVotes_yields (hG : ParentsFirst G) {previous : Votes} {k : Nat}
    {f : String → Option (Option Bool)} (hp : IsBallot f previous) (v : String) :
    Yields (CacheOk G) (visibleVotes (passCtx G members) (t.witnesses k) previous v)
      fun visible => ∀ b, visible.count b = ((election G members t).ballots f k v b).card := by
  classical
  refine Yields.mono (Computes.collectM (g := visibleVote G members t k v) ?_) ?_
  · intro p _
    obtain ⟨c, vote⟩ := p
    unfold visibleVote
    cases vote with
    | none => exact Computes.pure _
    | some vote =>
      cases hu : Dict.get (t.witnesses k) c with
      | none => exact Computes.pure _
      | some u =>
        show Computes _ (if c ∈ members then _ else _) _
        by_cases hc : c ∈ members
        · simp only [hc, if_true, true_and]
          exact (canSee_computes hG v u).bind (Yields.pure (by simp))
        · simp only [hc, if_false, false_and]
          exact Computes.pure _
  · rintro _ rfl b
    refine Dict.count_filterMap hp.nodup _ b fun c => ?_
    rw [Election.mem_ballots, ← hp.get c]
    simp only [visibleVote_eq_some, election, List.mem_toFinset]
    constructor
    · rintro ⟨hc, hvote, hseen⟩
      exact ⟨some b, hvote, rfl, hc, hseen⟩
    · rintro ⟨vote, hvote, rfl, hc, hseen⟩
      exact ⟨hc, hvote, hseen⟩

theorem laterVotes_yields (hG : ParentsFirst G) (h : t.Stacked) {w : String}
    {r k : Nat} {previous : Votes} (hp : IsBallot ((election G members t).vote w r k) previous) :
    Yields (CacheOk G) (laterVotes (passCtx G members) (t.witnesses (r + 1 + k))
      (t.witnesses (r + 1 + (k + 1))) previous)
      (IsBallot ((election G members t).vote w r (k + 1))) := by
  refine Yields.mono (Computes.collectM (g := fun p => if p.1 ∈ members then
    some (p.1, (election G members t).tally ((election G members t).vote w r k) (r + 1 + k) p.2)
    else none) ?_) ?_
  · intro p _
    show Computes _ (if p.1 ∈ members then _ else _) _
    split
    · exact Yields.bind (visibleVotes_yields hG hp p.2) fun visible hv =>
        Yields.pure (congrArg (fun b => some (p.1, b)) (tally_eq rfl hv))
    · exact Computes.pure _
  · rintro _ rfl
    have hb := isBallot_filterMap members (h.nodup (r + 1 + (k + 1)))
      ((election G members t).tally ((election G members t).vote w r k) (r + 1 + k))
    refine ⟨hb.nodup, fun c => (hb.get c).trans ?_⟩
    simp only [Election.vote, election, List.mem_toFinset]

/-! ## The history -/

/-- The votes on `w`, a witness of round `r`, for every later round in which
a member has a witness, up to round `n`. -/
structure HistoryOf (E : Election String String) (w : String) (r n : Nat)
    (history : Dict Nat Votes) : Prop where
  nodup : (Dict.keys history).Nodup
  mem : ∀ k, k ∈ Dict.keys history ↔ r < k ∧ k < n ∧ ∃ c ∈ E.members, (E.wit k c).isSome
  ballots : ∀ k votes, Dict.get history k = some votes → IsBallot (E.vote w r (k - (r + 1))) votes

theorem ballot_nonempty {E : Election String String} {w : String} {r k : Nat} {votes : Votes}
    (h : IsBallot (E.vote w r k) votes) :
    votes ≠ [] ↔ ∃ c ∈ E.members, (E.wit (r + 1 + k) c).isSome := by
  have hkey : votes ≠ [] ↔ ∃ c, (E.vote w r k c).isSome := by
    constructor
    · intro hne
      obtain ⟨p, hp⟩ := List.exists_mem_of_ne_nil votes hne
      exact ⟨p.1, by rw [← h.get, Dict.get_of_mem h.nodup hp]; rfl⟩
    · rintro ⟨c, hc⟩ rfl
      rw [← h.get] at hc; cases hc
  rw [hkey]
  refine exists_congr fun c => ?_
  cases k with
  | zero => unfold Election.vote; by_cases hc : c ∈ E.members <;> simp [hc]
  | succ k => unfold Election.vote; by_cases hc : c ∈ E.members <;> simp [hc]

/-- Adding the votes of round `n` to the history of the rounds before. -/
theorem HistoryOf.push {E : Election String String} {w : String} {r n : Nat}
    {history : Dict Nat Votes} {votes : Votes} (h : HistoryOf E w r n history) (hn : r < n)
    (hb : IsBallot (E.vote w r (n - (r + 1))) votes) :
    HistoryOf E w r (n + 1) (if votes.isEmpty then history else Dict.set history n votes) := by
  have hne := ballot_nonempty hb
  rw [show r + 1 + (n - (r + 1)) = n by omega] at hne
  cases hv : votes with
  | nil =>
    subst hv
    simp only [List.isEmpty_nil, if_true]
    refine ⟨h.nodup, fun k => ?_, h.ballots⟩
    rw [h.mem]
    constructor
    · rintro ⟨h1, h2, h3⟩; exact ⟨h1, by omega, h3⟩
    · rintro ⟨h1, h2, h3⟩
      rcases Nat.lt_succ_iff_lt_or_eq.1 h2 with h2 | rfl
      · exact ⟨h1, h2, h3⟩
      · exact absurd rfl (hne.2 h3)
  | cons p rest =>
    simp only [List.isEmpty_cons, Bool.false_eq_true, if_false]
    rw [← hv]
    have hex := hne.1 (by rw [hv]; exact List.cons_ne_nil _ _)
    refine ⟨Dict.nodup_set h.nodup _ _, fun k => ?_, fun k votes' hget => ?_⟩
    · rw [Dict.mem_keys_set, h.mem]
      constructor
      · rintro (rfl | ⟨h1, h2, h3⟩)
        · exact ⟨hn, by omega, hex⟩
        · exact ⟨h1, by omega, h3⟩
      · rintro ⟨h1, h2, h3⟩
        rcases Nat.lt_succ_iff_lt_or_eq.1 h2 with h2 | rfl
        · exact .inr ⟨h1, h2, h3⟩
        · exact .inl rfl
    · rw [Dict.get_set] at hget
      split at hget
      · rename_i hk; cases hget; exact hk ▸ hb
      · exact h.ballots k votes' hget

theorem prefix_range {n a : Nat} {pre post : List Nat} (h : List.range n = pre ++ a :: post) :
    a = pre.length := by
  have hget : (List.range n)[pre.length]? = some a := by rw [h]; simp
  rw [List.getElem?_range] at hget
  · exact (Option.some.inj hget).symm
  · have := congrArg List.length h
    simp only [List.length_range, List.length_append, List.length_cons] at this
    omega

theorem wit_lt_count (h : t.Stacked) {k : Nat} {c w : String}
    (hw : Dict.get (t.witnesses k) c = some w) : k < t.count := by
  rw [← h.mem_keys]
  by_contra hk
  unfold RoundTable.witnesses at hw
  rw [Dict.get_eq_none.2 hk] at hw
  cases hw

theorem voteHistory_yields (hG : ParentsFirst G) (h : t.Stacked) (w : String)
    (r : Nat) : Yields (CacheOk G)
      (voteHistory (passCtx G members) t (List.range t.count) r w)
      (HistoryOf (election G members t) w r t.count) := by
  unfold voteHistory
  refine Yields.bind (firstVotes_yields hG h w r) fun first hfirst => ?_
  have hempty : HistoryOf (election G members t) w r (r + 1) [] := by
    refine ⟨by simp, fun k => ?_, fun k votes hget => by cases hget⟩
    simp only [Dict.keys_nil, List.not_mem_nil, false_iff]
    rintro ⟨h1, h2, -⟩; omega
  have hzero : IsBallot ((election G members t).vote w r (r + 1 - (r + 1))) first := by
    rwa [Nat.sub_self]
  have hstart := hempty.push (by omega) hzero
  -- after the rounds below `a`: the history up to round `a`, and the last votes
  refine Yields.bind (Yields.loopM (fun pre s =>
    HistoryOf (election G members t) w r (max pre.length (r + 2)) s.1 ∧
    IsBallot ((election G members t).vote w r (pre.length - (r + 2))) s.2) ?_ ?_) ?_
  · rintro pre a post hsplit ⟨history, previous⟩ ⟨hh, hp⟩
    have ha := prefix_range hsplit
    simp only [List.length_append, List.length_singleton, ← ha] at hh hp ⊢
    split
    · rename_i hle
      refine Yields.pure ⟨?_, ?_⟩
      · rw [show max (a + 1) (r + 2) = max a (r + 2) by omega]; exact hh
      · rw [show a + 1 - (r + 2) = a - (r + 2) by omega]; exact hp
    · rename_i hgt
      obtain ⟨j, rfl⟩ : ∃ j, a = r + 1 + (j + 1) := ⟨a - (r + 2), by omega⟩
      rw [show r + 1 + (j + 1) - (r + 2) = j by omega] at hp
      rw [show max (r + 1 + (j + 1)) (r + 2) = r + 1 + (j + 1) by omega] at hh
      rw [show max (r + 1 + (j + 1) + 1) (r + 2) = r + 1 + (j + 1) + 1 by omega,
        show r + 1 + (j + 1) + 1 - (r + 2) = j + 1 by omega]
      refine Yields.bind (laterVotes_yields hG h hp) fun current hc => Yields.pure ⟨?_, hc⟩
      refine hh.push (by omega) ?_
      rw [show r + 1 + (j + 1) - (r + 1) = j + 1 by omega]
      exact hc
  · simp only [List.length_nil]
    rw [show max 0 (r + 2) = r + 1 + 1 by omega, show 0 - (r + 2) = 0 by omega]
    exact ⟨hstart, hfirst⟩
  · rintro ⟨history, previous⟩ ⟨hh, -⟩
    refine Yields.pure ⟨hh.nodup, fun k => ?_, hh.ballots⟩
    rw [hh.mem]
    refine and_congr_right fun _ => ⟨?_, ?_⟩
    · rintro ⟨-, c, hc, hsome⟩
      obtain ⟨v, hv⟩ := Option.isSome_iff_exists.1 hsome
      exact ⟨wit_lt_count h hv, c, hc, hsome⟩
    · rintro ⟨hk, hex⟩
      refine ⟨?_, hex⟩
      rw [List.length_range]
      omega

/-! ## The record -/

section Resolve
variable {history history' : Dict Nat Votes} {threshold : Nat}

theorem resolveVotes_congr : ∀ (ks : List Nat) (d : FameDecision),
    (∀ k ∈ ks, ∀ b, voteCount history k b = voteCount history' k b) →
    resolveVotes history threshold d ks = resolveVotes history' threshold d ks := by
  intro ks
  induction ks with
  | nil => intro d _; rfl
  | cons k ks ih =>
    intro d hc
    have hk := hc k List.mem_cons_self
    have hrest := fun d => ih d fun k' hk' => hc k' (List.mem_cons_of_mem _ hk')
    have ht := hk true
    have hf := hk false
    unfold voteCount at ht hf
    unfold resolveVotes
    dsimp only
    rw [ht, hf, hrest]

end Resolve

section Record
variable {E : Election String String} {w : String} {r n : Nat} {history history' : Dict Nat Votes}

theorem HistoryOf.voteCount_eq (h : HistoryOf E w r n history) {k : Nat}
    (hk : k ∈ Dict.keys history) (b : Bool) :
    voteCount history k b = (E.votesFor w r (k - (r + 1)) b).card := by
  obtain ⟨votes, hget⟩ := Dict.mem_keys.1 hk
  have hb := h.ballots k votes hget
  have hval : Dict.values votes = votes.filterMap fun p => some p.2 := by
    rw [List.filterMap_eq_map']; rfl
  unfold voteCount
  rw [hget, Option.getD_some, hval]
  refine Dict.count_filterMap hb.nodup _ (some b) fun c => ?_
  rw [Election.mem_votesFor, ← hb.get]
  constructor
  · rintro ⟨-, hv⟩; exact ⟨some b, hv, rfl⟩
  · rintro ⟨v, hv, hvb⟩
    cases hvb
    refine ⟨?_, hv⟩
    rw [hb.get] at hv
    generalize k - (r + 1) = j at hv
    cases j <;> unfold Election.vote at hv <;> split at hv <;> first | assumption | cases hv

theorem HistoryOf.keys_perm (h : HistoryOf E w r n history) (h' : HistoryOf E w r n history') :
    (Dict.keys history).Perm (Dict.keys history') :=
  (List.perm_ext_iff_of_nodup h.nodup h'.nodup).2 fun k => (h.mem k).trans (h'.mem k).symm

theorem sortedNats_congr {xs ys : List Nat} (h : xs.Perm ys) : sortedNats xs = sortedNats ys :=
  ((sortedNats_perm xs).trans (h.trans (sortedNats_perm ys).symm)).eq_of_pairwise
    (fun _ _ _ _ h h' => Nat.le_antisymm h h')
    (sortedNats_pairwise xs) (sortedNats_pairwise ys)

/-- The record depends on the votes only, not on how the history lists them. -/
theorem HistoryOf.resolve_eq (h : HistoryOf E w r n history) (h' : HistoryOf E w r n history')
    (threshold : Nat) : resolveFameFromVoteHistory w history threshold =
      resolveFameFromVoteHistory w history' threshold := by
  have hperm := h.keys_perm h'
  have hlen : history.length = history'.length := by
    have := hperm.length_eq
    simpa only [Dict.keys, List.length_map] using this
  have hmax : (Dict.keys history).foldl max 0 = (Dict.keys history').foldl max 0 :=
    hperm.foldl_eq 0
  have hwalk : resolveVotes history threshold {} (sortedNats (Dict.keys history)) =
      resolveVotes history' threshold {} (sortedNats (Dict.keys history')) := by
    rw [sortedNats_congr hperm]
    refine resolveVotes_congr _ _ fun k hk b => ?_
    have hk' := mem_sortedNats.1 hk
    rw [h.voteCount_eq (hperm.mem_iff.2 hk') b, h'.voteCount_eq hk' b]
  unfold resolveFameFromVoteHistory
  rw [hwalk, hlen, hmax]

/-- The fame record the election gives to `w` as a witness of round `r` when
`n` rounds are in use. -/
noncomputable def fameRecord (E : Election String String) (n r : Nat) (w : String) : FameDecision :=
  resolveFameFromVoteHistory w (Classical.epsilon (HistoryOf E w r n)) E.threshold

theorem HistoryOf.record_eq (h : HistoryOf E w r n history) :
    resolveFameFromVoteHistory w history E.threshold = fameRecord E n r w :=
  h.resolve_eq (Classical.epsilon_spec ⟨_, h⟩) _

/-- The later rounds with a member's witness that `n` rounds leave to a
witness of round `r`. -/
noncomputable def votingRounds (E : Election String String) (n r : Nat) : Finset Nat :=
  open Classical in (Finset.range n).filter fun k => r < k ∧ ∃ c ∈ E.members, (E.wit k c).isSome

theorem HistoryOf.keys_toFinset (h : HistoryOf E w r n history) :
    (Dict.keys history).toFinset = votingRounds E n r := by
  ext k
  simp only [List.mem_toFinset, h.mem, votingRounds, Finset.mem_filter, Finset.mem_range]
  tauto

theorem HistoryOf.length_eq (h : HistoryOf E w r n history) :
    history.length = (votingRounds E n r).card := by
  rw [← h.keys_toFinset, List.toFinset_card_of_nodup h.nodup]
  simp [Dict.keys]

theorem HistoryOf.max_eq (h : HistoryOf E w r n history) :
    (Dict.keys history).foldl max 0 = (votingRounds E n r).sup id := by
  rw [← h.keys_toFinset, List.foldl_eq_foldr]
  exact List.foldr_sup_eq_sup_toFinset _

/-- A round that carries a side is a round of the history. -/
theorem HistoryOf.mem_of_carries (h : HistoryOf E w r n history) (hq : E.Quorate)
    (hn : ∀ k c v, E.wit k c = some v → k < n) {k : Nat} {b : Bool} (hc : E.Carries w r k b) :
    r + 1 + k ∈ Dict.keys history := by
  obtain ⟨c, hm, hv⟩ := hq.exists_of_carries hc
  obtain ⟨v, hw⟩ := Election.wit_of_vote (k := k) (by rw [hv]; rfl)
  exact (h.mem _).2 ⟨by omega, hn _ c v hw, c, hm, by rw [hw]; rfl⟩

/-- What a fame record says about the votes. -/
inductive RecordCase (E : Election String String) (n r : Nat) (w : String) (d : FameDecision) : Prop
  | vote (decided : d.decided = true) (kind : d.decisionKind = .vote)
      (carries : ∃ k, E.Carries w r k d.famous)
  | coin (decided : d.decided = true) (kind : d.decisionKind = .coinSurrogate)
      (long : 2 ≤ (votingRounds E n r).card) (open_ : ∀ k b, ¬ E.Carries w r k b)
    (toss : d.famous = deterministicCoinChoice w ((votingRounds E n r).sup id))
  | pending (decided : d.decided = false) (kind : d.decisionKind = .pending)
      (famous : d.famous = false) (short : (votingRounds E n r).card < 2)
      (open_ : ∀ k b, ¬ E.Carries w r k b)

theorem HistoryOf.recordCase (h : HistoryOf E w r n history) (hq : E.Quorate)
    (hn : ∀ k c v, E.wit k c = some v → k < n) :
    RecordCase E n r w (resolveFameFromVoteHistory w history E.threshold) := by
  have hopen : (∀ k ∈ sortedNats (Dict.keys history), ∀ b, voteCount history k b < E.threshold) →
      ∀ k b, ¬ E.Carries w r k b := by
    intro hall k b hc
    have hk := h.mem_of_carries hq hn hc
    have hlt := hall _ (mem_sortedNats.2 hk) b
    rw [h.voteCount_eq hk, show r + 1 + k - (r + 1) = k by omega] at hlt
    exact absurd hc (Nat.not_le.2 hlt)
  unfold resolveFameFromVoteHistory
  split
  · rename_i d hwalk
    obtain ⟨hd, hk, k, hmem, -, hle⟩ := resolveVotes_true _ _ _ hwalk
    have hk' := mem_sortedNats.1 hmem
    rw [h.voteCount_eq hk'] at hle
    exact .vote hd hk ⟨_, hle⟩
  · rename_i d hwalk
    obtain ⟨hd, hk, hf, hall⟩ := resolveVotes_false _ _ _ hwalk
    split
    · rename_i hlen
      exact .coin rfl rfl (h.length_eq ▸ hlen) (hopen hall) (congrArg (deterministicCoinChoice w) h.max_eq)
    · rename_i hlen
      exact .pending hd hk hf (h.length_eq ▸ Nat.not_le.1 hlen) (hopen hall)

/-- A record decided by vote names a round whose votes carry it. -/
theorem HistoryOf.decisionRound_eq (h : HistoryOf E w r n history)
    (hk : (resolveFameFromVoteHistory w history E.threshold).decisionKind = .vote) :
    ∃ k, (resolveFameFromVoteHistory w history E.threshold).decisionRound = some (r + 1 + k) ∧
      E.Carries w r k (resolveFameFromVoteHistory w history E.threshold).famous := by
  unfold resolveFameFromVoteHistory at hk ⊢
  split at hk
  · rename_i d hwalk
    obtain ⟨-, -, j, hmem, hround, hle⟩ := resolveVotes_true _ _ _ hwalk
    have hj := mem_sortedNats.1 hmem
    have hlt := ((h.mem j).1 hj).1
    rw [h.voteCount_eq hj] at hle
    exact ⟨j - (r + 1), by rw [hround, show r + 1 + (j - (r + 1)) = j by omega], hle⟩
  · rename_i d hwalk
    obtain ⟨-, hpending, -⟩ := resolveVotes_false _ _ _ hwalk
    split at hk
    · cases hk
    · rw [hpending] at hk; cases hk

end Record

/-! ## The pass over all rounds -/

noncomputable def fameTable (G : List Event) (members : List String) (t : RoundTable) :
    FameByRound :=
  (List.range t.count).map fun r => (r, (Dict.values (t.witnesses r)).map fun w =>
    (w, fameRecord (election G members t) t.count r w))

theorem roundFame_computes (hG : ParentsFirst G) (h : t.Stacked) (r : Nat) :
    Computes (CacheOk G) (roundFame (passCtx G members) t (List.range t.count) r)
      ((Dict.values (t.witnesses r)).map fun w =>
        (w, fameRecord (election G members t) t.count r w)) := by
  have he : (Dict.values (t.witnesses r)).map (fun w =>
      (w, fameRecord (election G members t) t.count r w)) =
      (t.witnesses r).filterMap fun p =>
        some (p.2, fameRecord (election G members t) t.count r p.2) := by
    rw [List.filterMap_eq_map', Dict.values, List.map_map]; rfl
  rw [he]
  refine Computes.collectM fun p _ => ?_
  refine Yields.bind (voteHistory_yields hG h p.2 r) fun history hh => Yields.pure ?_
  exact congrArg (fun d => some (p.2, d)) hh.record_eq

theorem fameDecisions_computes (hG : ParentsFirst G) (h : t.Stacked) :
    Computes (CacheOk G) (fameDecisions (passCtx G members) t) (fameTable G members t) := by
  unfold fameDecisions fameTable
  rw [h.ordered, ← List.filterMap_eq_map']
  exact Computes.collectM fun r _ => (roundFame_computes hG h r).bind (Computes.pure _)

theorem witnesses_nil (h : t.Stacked) {r : Nat} (hr : ¬ r < t.count) : t.witnesses r = [] := by
  rw [← h.mem_keys] at hr
  unfold RoundTable.witnesses
  rw [Dict.get_eq_none.2 hr]; rfl

theorem fameTable_get (G : List Event) (members : List String) (h : t.Stacked) (r : Nat) :
    (Dict.get (fameTable G members t) r).getD [] = (Dict.values (t.witnesses r)).map fun w =>
      (w, fameRecord (election G members t) t.count r w) := by
  unfold fameTable
  rw [Dict.get_map_key]
  split
  · rfl
  · rename_i hr
    rw [List.mem_range] at hr
    rw [witnesses_nil h hr]; rfl

open Classical in
/-- Witnesses have the election's record, other events the pending one. -/
theorem fameOf_get (G : List Event) (members : List String) (h : t.Stacked) (r : Nat) (w : String) :
    fameOf (fameTable G members t) r w = if ∃ c, Dict.get (t.witnesses r) c = some w
      then fameRecord (election G members t) t.count r w else {} := by
  unfold fameOf
  rw [fameTable_get G members h, Dict.get_map_key]
  simp only [Dict.mem_values (h.nodup r)]
  split <;> rfl

open Classical in
theorem fameOf_eq (hG : ParentsFirst G) (h : TableInv G members G t) (r : Nat) (w : String) :
    fameOf (fameTable G members t) r w =
      if ∃ c, WitAt G t.round r c w then fameRecord (election G members t) t.count r w else {} := by
  have hiff : ∀ c, Dict.get (t.witnesses r) c = some w ↔ WitAt G t.round r c w := fun c =>
    (h.wits r c w).trans ⟨fun hw => hw.2, fun hw => ⟨hw.auth.mem, hw⟩⟩
  rw [fameOf_get G members (h.stacked hG)]
  simp only [hiff]

theorem fameRecord_case (hG : ParentsFirst G) (h : t.Stacked) (r : Nat) (w : String) :
    RecordCase (election G members t) t.count r w
      (fameRecord (election G members t) t.count r w) := by
  obtain ⟨history, -, -, hh, -⟩ := voteHistory_yields hG h w r [] cacheOk_nil
  rw [← hh.record_eq]
  exact hh.recordCase election_quorate fun k c v hv => wit_lt_count h hv

theorem fameRecord_decisionRound (hG : ParentsFirst G) (h : t.Stacked) {r : Nat} {w : String}
    (hk : (fameRecord (election G members t) t.count r w).decisionKind = .vote) :
    ∃ k, (fameRecord (election G members t) t.count r w).decisionRound = some (r + 1 + k) ∧
      (election G members t).Carries w r k (fameRecord (election G members t) t.count r w).famous := by
  obtain ⟨history, -, -, hh, -⟩ := voteHistory_yields hG h w r [] cacheOk_nil
  rw [← hh.record_eq] at hk ⊢
  exact hh.decisionRound_eq hk

end Mdrj.L2
