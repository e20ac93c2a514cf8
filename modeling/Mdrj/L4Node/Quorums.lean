import Mathlib.Algebra.Order.Floor.Semiring
import Mathlib.Data.Finset.Card
import Mathlib.Data.Rat.Floor
import Mdrj.L4Node.Checkpoint

/-!
# Quorums

A checkpoint needs the signatures of `⌈2n/3⌉` of the `n` distinct members, a
step of the consensus the support of `⌊2n/3⌋ + 1`. Both roundings leave two
quorums a third of the members in common.

* `exists_common_signer`: two quorums of signers share a member.
* `quorums_intersect`: how many members two quorums share.
-/
namespace Mdrj.L4
open Mdrj.Core Mdrj.L1 Mdrj.L2

/-- The parts of a set share what does not fit into it side by side. -/
theorem card_add_card_le {α : Type} [DecidableEq α] {u s t : Finset α} (hs : s ⊆ u) (ht : t ⊆ u) :
    s.card + t.card ≤ u.card + (s ∩ t).card := by
  have hunion := Finset.card_union_add_card_inter s t
  have hle := Finset.card_le_card (Finset.union_subset hs ht)
  omega

/-- The distinct nonblank ids. -/
def memberSet (members : List String) : Finset String := (members.filter (· ≠ "")).toFinset

/-- The members among the signers. -/
def memberSigners (signatures : Dict String String) (members : List String) : Finset String :=
  (memberSet members).filter (· ∈ Dict.keys signatures)

variable {signatures signatures' : Dict String String} {members : List String}

theorem memberSigners_subset : memberSigners signatures members ⊆ memberSet members := Finset.filter_subset _ _

theorem isQuorumReached_iff : isQuorumReached signatures members = true ↔
    memberSet members ≠ ∅ ∧ (2 * (memberSet members).card + 2) / 3 ≤ (memberSigners signatures members).card := by
  unfold isQuorumReached
  dsimp only
  change (if memberSet members = ∅ then false else
    decide ((2 * (memberSet members).card + 2) / 3 ≤ (memberSigners signatures members).card)) = true ↔ _
  split
  · next hempty => simp only [hempty, ne_eq, not_true_eq_false, false_and, Bool.false_eq_true]
  · next hne => simp only [decide_eq_true_eq, ne_eq, hne, not_false_eq_true, true_and]

theorem isQuorumReached_mono (hsub : ∀ m ∈ Dict.keys signatures, m ∈ Dict.keys signatures')
    (h : isQuorumReached signatures members = true) :
    isQuorumReached signatures' members = true := by
  rw [isQuorumReached_iff] at h ⊢
  refine ⟨h.1, h.2.trans (Finset.card_le_card ?_)⟩
  exact Finset.monotone_filter_right _ fun m _ hm => hsub m hm

/-- Two thirds of the members, rounded up, have signed. -/
theorem isQuorumReached_ceil (h : isQuorumReached signatures members = true) :
    ⌈(2 * (memberSet members).card : ℚ) / 3⌉₊ ≤ (memberSigners signatures members).card := by
  have hle := (isQuorumReached_iff.1 h).2
  rw [Nat.ceil_le, div_le_iff₀ (by norm_num)]
  have hnat : 2 * (memberSet members).card ≤ (memberSigners signatures members).card * 3 := by omega
  exact_mod_cast hnat

/-- What two quorums share is a third of the members at least. -/
theorem shared_signers (h : isQuorumReached signatures members = true)
    (h' : isQuorumReached signatures' members = true) :
    (memberSet members).card ≤
      3 * (memberSigners signatures members ∩ memberSigners signatures' members).card := by
  have hle := (isQuorumReached_iff.1 h).2
  have hle' := (isQuorumReached_iff.1 h').2
  have hsub : memberSigners signatures members ⊆ memberSet members := memberSigners_subset
  have hsub' : memberSigners signatures' members ⊆ memberSet members := memberSigners_subset
  have hshared := card_add_card_le hsub hsub'
  omega

/-- Two quorums share a member. -/
theorem exists_common_signer (h : isQuorumReached signatures members = true)
    (h' : isQuorumReached signatures' members = true) :
    ∃ m ∈ members, m ∈ Dict.keys signatures ∧ m ∈ Dict.keys signatures' := by
  have hpos := Finset.card_pos.2 (Finset.nonempty_iff_ne_empty.2 (isQuorumReached_iff.1 h).1)
  have hshared := shared_signers h h'
  obtain ⟨m, hm⟩ := Finset.card_pos.1 (by omega :
    0 < (memberSigners signatures members ∩ memberSigners signatures' members).card)
  obtain ⟨hm, hm'⟩ := Finset.mem_inter.1 hm
  obtain ⟨hmember, hsigned⟩ := Finset.mem_filter.1 hm
  exact ⟨m, (List.mem_filter.1 (List.mem_toFinset.1 hmember)).1, hsigned, (Finset.mem_filter.1 hm').2⟩

/-- All members are a quorum. -/
theorem isQuorumReached_all (hmembers : 0 < (memberSet members).card)
    (hall : ∀ m ∈ memberSet members, m ∈ Dict.keys signatures) : isQuorumReached signatures members = true := by
  have heq : memberSigners signatures members = memberSet members := Finset.filter_true_of_mem hall
  rw [isQuorumReached_iff, heq]
  exact ⟨(Finset.card_pos.1 hmembers).ne_empty, by omega⟩

/-! ## The threshold of the consensus -/

section Supermajority
variable {u s t : Finset String}

theorem supermajorityThreshold_le (hpos : 0 < u.card) : supermajorityThreshold u.card ≤ u.card := by
  unfold supermajorityThreshold
  omega

theorem supermajorities_shared (hs : s ⊆ u) (ht : t ⊆ u) (hsupport : supermajorityThreshold u.card ≤ s.card)
    (hsupport' : supermajorityThreshold u.card ≤ t.card) : u.card < 3 * (s ∩ t).card := by
  have hshared := card_add_card_le hs ht
  unfold supermajorityThreshold at hsupport hsupport'
  omega

end Supermajority

/-- **Quorums intersect.** Two quorums of signers share a third of the members,
rounded up, and all members are a quorum; two supermajorities share more than
a third, and all members are one. -/
theorem quorums_intersect (members : List String) (hmembers : 0 < (memberSet members).card) :
    (∀ signatures signatures', isQuorumReached signatures members = true →
      isQuorumReached signatures' members = true →
      ⌈((memberSet members).card : ℚ) / 3⌉₊ ≤
        (memberSigners signatures members ∩ memberSigners signatures' members).card) ∧
    (∀ signatures, (∀ m ∈ memberSet members, m ∈ Dict.keys signatures) →
      isQuorumReached signatures members = true) ∧
    ∀ u : Finset String, 0 < u.card → supermajorityThreshold u.card ≤ u.card ∧
      ∀ s ⊆ u, ∀ t ⊆ u, supermajorityThreshold u.card ≤ s.card → supermajorityThreshold u.card ≤ t.card →
        (u.card : ℚ) / 3 < (s ∩ t).card := by
  refine ⟨fun signatures signatures' h h' => ?_, fun signatures => isQuorumReached_all hmembers,
    fun u hpos => ⟨supermajorityThreshold_le hpos, fun s hs t ht hsupport hsupport' => ?_⟩⟩
  · rw [Nat.ceil_le, div_le_iff₀ (by norm_num), mul_comm]
    exact_mod_cast shared_signers h h'
  · rw [div_lt_iff₀ (by norm_num), mul_comm]
    exact_mod_cast supermajorities_shared hs ht hsupport hsupport'

/-- Three members, one of them listed twice, and a stranger. -/
theorem quorums_intersect_three :
    1 ≤ (memberSigners [("a", ""), ("b", ""), ("x", "")] ["a", "b", "c", "a", ""] ∩
      memberSigners [("c", ""), ("b", "")] ["a", "b", "c", "a", ""]).card ∧
    isQuorumReached [("c", ""), ("b", ""), ("a", "")] ["a", "b", "c", "a", ""] = true ∧
    (1 : ℚ) < ({"a", "b", "c"} ∩ {"a", "b", "c"} : Finset String).card := by
  have hcard : (memberSet ["a", "b", "c", "a", ""]).card = 3 := by decide
  obtain ⟨hshare, hall, hsupport⟩ := quorums_intersect ["a", "b", "c", "a", ""] (by rw [hcard]; decide)
  refine ⟨?_, hall _ (by decide), ?_⟩
  · have hceil := hshare [("a", ""), ("b", ""), ("x", "")] [("c", ""), ("b", "")] (by decide) (by decide)
    rw [hcard] at hceil
    have hone : ⌈((3 : ℕ) : ℚ) / 3⌉₊ = 1 := by norm_num
    rwa [hone] at hceil
  · obtain ⟨-, hpair⟩ := hsupport {"a", "b", "c"} (by decide)
    have hmore := hpair {"a", "b", "c"} (by decide) {"a", "b", "c"} (by decide) (by decide) (by decide)
    have hthree : (({"a", "b", "c"} : Finset String).card : ℚ) / 3 = 1 := by
      rw [show ({"a", "b", "c"} : Finset String).card = 3 by decide]
      norm_num
    rwa [hthree] at hmore

end Mdrj.L4
