import Mdrj.L2Consensus.Observations

/-!
# Consensus timestamps

`_consensus_timestamp` takes for each member the earliest timestamp among
its hops and then a median. Away from NaN the earliest timestamp does not
depend on the order of the hops, and neither does the median:
`consensusTimestamp_eq_of_hops`. A NaN stays when it comes first, since
nothing is below it.
-/
namespace Mdrj.L2
open Mdrj.Core Mdrj.L1

/-! ## Observations -/

/-- A hop of the member `n` has the timestamp `ts`. -/
def Observed (members : List String) (hops : List Hop) (n : String) (ts : Flt) : Prop :=
  n ∈ members ∧ ∃ hop ∈ hops, hop.ts = some ts ∧ strip (hop.node.getD "") = n

/-- No hop has the timestamp NaN. -/
def NoNan (hops : List Hop) : Prop := ∀ hop ∈ hops, hop.ts ≠ some .nan

instance (hops : List Hop) : Decidable (NoNan hops) :=
  inferInstanceAs (Decidable (∀ hop ∈ hops, hop.ts ≠ some .nan))

/-- The observation kept for `n` is its earliest one. -/
def IsEarliest (members : List String) (hops : List Hop) (n : String) : Option Flt → Prop
  | none => ∀ ts, ¬ Observed members hops n ts
  | some ts => Observed members hops n ts ∧ ∀ ts', Observed members hops n ts' → Flt.lt ts' ts = false

section Observe
variable {members : List String} {hops : List Hop} {n : String}

theorem isEarliest_iff {o : Option Flt} :
    IsEarliest members hops n o ↔ floats.Keeps members hops n o := by
  cases o <;> exact Iff.rfl

/-- The observations of a list of hops are the earliest ones. -/
theorem observations_spec (members : List String) (hops : List Hop) :
    (Dict.keys (hops.foldl (observe members) [])).Nodup ∧
      ∀ n, IsEarliest members hops n (Dict.get (hops.foldl (observe members) []) n) := by
  obtain ⟨hnodup, hkeeps⟩ := HopReading.observations_keep floats_strict members hops
  rw [floats_observe] at hnodup hkeeps
  exact ⟨hnodup, fun n => isEarliest_iff.2 (hkeeps n)⟩

theorem IsEarliest.unique {hops' : List Hop} {o o' : Option Flt} (hnan : NoNan hops)
    (hsame : ∀ hop, hop ∈ hops ↔ hop ∈ hops') (h : IsEarliest members hops n o)
    (h' : IsEarliest members hops' n o') : o = o' := by
  have hiff : ∀ ts, Observed members hops n ts ↔ Observed members hops' n ts := fun ts => by
    unfold Observed; simp only [hsame]
  have hne : ∀ ts, Observed members hops n ts → ts ≠ .nan := by
    rintro ts ⟨-, hop, hmem, hts, -⟩ rfl
    exact hnan hop hmem hts
  cases o with
  | none =>
    cases o' with
    | none => rfl
    | some ts' => exact absurd ((hiff ts').2 h'.1) (h ts')
  | some ts =>
    cases o' with
    | none => exact absurd ((hiff ts).1 h.1) (h' ts)
    | some ts' =>
      by_contra hdiff
      have hts' := (hiff ts').2 h'.1
      rcases Flt.lt_total (hne ts h.1) (hne ts' hts') (fun e => hdiff (congrArg some e)) with hlt | hlt
      · rw [h'.2 ts ((hiff ts).1 h.1)] at hlt; cases hlt
      · rw [h.2 ts' hts'] at hlt; cases hlt

end Observe

/-! ## The median -/

theorem sortedFlts_perm {xs ys : List Flt} (h : xs.Perm ys) (hnan : ∀ x ∈ xs, x ≠ .nan) :
    sortedFlts xs = sortedFlts ys := by
  have hsorted : ∀ zs : List Flt, (∀ z ∈ zs, z ≠ .nan) →
      (sortedFlts zs).Pairwise fun a b => Flt.lt b a = false := by
    intro zs hzs
    exact ListSort.pairwise_sorted_of (fun a ha b hb c hc hab hbc =>
      Flt.not_lt_trans (hzs c hc) (hzs b hb) (hzs a ha) hbc hab) (fun a _ b _ h => Flt.lt_asymm h)
      fun a _ b _ h => h
  have hys : ∀ y ∈ ys, y ≠ .nan := fun y hy => hnan y (h.mem_iff.2 hy)
  refine List.Perm.eq_of_pairwise ?_ (hsorted xs hnan) (hsorted ys hys) ?_
  · intro a b ha hb hab hba
    by_contra hne
    have ha' : a ≠ .nan := hnan a ((ListSort.sorted_perm xs).mem_iff.1 ha)
    have hb' : b ≠ .nan := hys b ((ListSort.sorted_perm ys).mem_iff.1 hb)
    rcases Flt.lt_total ha' hb' hne with hlt | hlt
    · rw [hba] at hlt; cases hlt
    · rw [hab] at hlt; cases hlt
  · exact (ListSort.sorted_perm xs).trans (h.trans (ListSort.sorted_perm ys).symm)

theorem median_perm {xs ys : List Flt} (h : xs.Perm ys) (hnan : ∀ x ∈ xs, x ≠ .nan) :
    median xs = median ys := by
  unfold median
  rw [sortedFlts_perm h hnan]

/-- **The order of the hops does not show.** Without NaN, a timestamp depends
only on the set of an event's hops. -/
theorem consensusTimestamp_eq_of_hops {x : String} {pathMeta pathMeta' : Dict String (List Hop)}
    (hsame : ∀ hop, hop ∈ (Dict.get pathMeta x).getD [] ↔ hop ∈ (Dict.get pathMeta' x).getD [])
    (hnan : NoNan ((Dict.get pathMeta x).getD [])) (members : List String) (quorum : Nat) :
    consensusTimestamp x members quorum pathMeta = consensusTimestamp x members quorum pathMeta' := by
  obtain ⟨hnodup, hspec⟩ := observations_spec members ((Dict.get pathMeta x).getD [])
  obtain ⟨hnodup', hspec'⟩ := observations_spec members ((Dict.get pathMeta' x).getD [])
  unfold consensusTimestamp
  dsimp only
  set obs := ((Dict.get pathMeta x).getD []).foldl (observe members) []
  set obs' := ((Dict.get pathMeta' x).getD []).foldl (observe members) []
  have hperm : obs.Perm obs' := Dict.perm_of_get_eq hnodup hnodup' fun n =>
    (hspec n).unique hnan hsame (hspec' n)
  have hne : ∀ ts ∈ Dict.values obs, ts ≠ .nan := by
    intro ts hts
    obtain ⟨n, hget⟩ := (Dict.mem_values hnodup).1 hts
    have := hspec n
    rw [hget] at this
    obtain ⟨⟨-, hop, hmem, hopts, -⟩, -⟩ := this
    rintro rfl
    exact hnan hop hmem hopts
  have hmedian : median (Dict.values obs) = median (Dict.values obs') :=
    median_perm (hperm.map Prod.snd) hne
  rw [hperm.length_eq, hmedian]

end Mdrj.L2
