import Mathlib.Algebra.Order.Ring.Rat
import Mathlib.Data.List.GetD
import Mathlib.Tactic.Linarith
import Mdrj.Core.ListOrder
import Mdrj.Core.Rank
import Mdrj.Core.Sorting
import Mdrj.L2Consensus.Engine

/-!
# Timestamps from hops, over any numbers

`_consensus_timestamp` uses little of its numbers: it compares two
timestamps and takes the mean of two. `HopReading` is that much, and the
functions of the engine are those of this module at Python's floats
(`floats_consensusTimestamp`). Over the rationals, where the mean is exact,
the timestamp is robust (`consensusTimestamp_robust`): it depends on each
member's earliest report alone, and no minority of reporters moves it out of
the range of the others.
-/
namespace Mdrj.L2
open Mdrj.Core Mdrj.L1

/-- What the engine reads of a hop and does with timestamps; `absent` stands
for an index that no list of observations under a quorum runs into. -/
structure HopReading (η τ : Type) where
  node : η → Option String
  ts : η → Option τ
  lt : τ → τ → Bool
  mean : τ → τ → τ
  absent : τ

namespace HopReading
variable {η τ : Type} (R : HopReading η τ)

/-- mirrors mdrj/utils.py:61-68 -/
def median (values : List τ) : τ :=
  let ordered := ListSort.sorted R.lt values
  let mid := ordered.length / 2
  if ordered.length % 2 = 1 then ordered.getD mid R.absent
  else R.mean (ordered.getD (mid - 1) R.absent) (ordered.getD mid R.absent)

/-- mirrors mdrj/consensus.py:436-443 -/
def observe (membershipIds : List String) (observations : Dict String τ) (hop : η) :
    Dict String τ :=
  let nodeId := strip ((R.node hop).getD "")
  match R.ts hop with
  | none => observations
  | some ts =>
    if nodeId ∉ membershipIds then observations
    else
      match Dict.get observations nodeId with
      | none => Dict.set observations nodeId ts
      | some known => if R.lt ts known then Dict.set observations nodeId ts else observations

/-- mirrors mdrj/consensus.py:429-446 -/
def consensusTimestamp (membershipIds : List String) (quorum : Nat) (hops : List η) : Option τ :=
  let observations := hops.foldl (R.observe membershipIds) []
  if observations.length < quorum then none else some (R.median (Dict.values observations))

end HopReading

/-- The numbers the engine runs on. -/
def floats : HopReading Hop Flt := ⟨Hop.node, Hop.ts, Flt.lt, fun a b => (a.add b).half, .nan⟩

theorem floats_observe (members : List String) : floats.observe members = observe members := by
  funext observations hop
  obtain ⟨node, ts⟩ := hop
  cases ts with
  | none => rfl
  | some ts =>
    unfold HopReading.observe Mdrj.L2.observe
    dsimp only [floats]
    cases Dict.get observations (strip (node.getD "")) <;> rfl

theorem floats_consensusTimestamp (x : String) (members : List String) (quorum : Nat)
    (pathMeta : Dict String (List Hop)) : consensusTimestamp x members quorum pathMeta =
      floats.consensusTimestamp members quorum ((Dict.get pathMeta x).getD []) := by
  unfold HopReading.consensusTimestamp
  rw [floats_observe]
  rfl

/-! ## The earliest report of a member -/

namespace HopReading
variable {η τ : Type} (R : HopReading η τ)

/-- The comparison is a strict order, of some pairs at least. -/
structure Strict : Prop where
  irrefl : ∀ x, R.lt x x = false
  trans : ∀ {x y z}, R.lt x y = true → R.lt y z = true → R.lt x z = true

/-- A hop of the member `n` has the timestamp `ts`. -/
def Reports (members : List String) (hops : List η) (n : String) (ts : τ) : Prop :=
  n ∈ members ∧ ∃ hop ∈ hops, R.ts hop = some ts ∧ strip ((R.node hop).getD "") = n

/-- The timestamp kept for `n` is its earliest one. -/
def Keeps (members : List String) (hops : List η) (n : String) : Option τ → Prop
  | none => ∀ ts, ¬ R.Reports members hops n ts
  | some ts => R.Reports members hops n ts ∧
    ∀ ts', R.Reports members hops n ts' → R.lt ts' ts = false

variable {R} {members : List String} {hops : List η} {hop : η} {n : String}

theorem reports_append {ts : τ} : R.Reports members (hops ++ [hop]) n ts ↔
    R.Reports members hops n ts ∨
      n ∈ members ∧ R.ts hop = some ts ∧ strip ((R.node hop).getD "") = n := by
  unfold Reports
  simp only [List.mem_append, List.mem_singleton, or_and_right, exists_or, exists_eq_left, and_or_left]

/-- A hop that is no report of `n`. -/
theorem Keeps.skip {o : Option τ} (h : R.Keeps members hops n o)
    (hskip : ∀ ts, ¬ (n ∈ members ∧ R.ts hop = some ts ∧ strip ((R.node hop).getD "") = n)) :
    R.Keeps members (hops ++ [hop]) n o := by
  have hiff : ∀ ts, R.Reports members (hops ++ [hop]) n ts ↔ R.Reports members hops n ts := fun ts =>
    reports_append.trans (or_iff_left (hskip ts))
  cases o with
  | none => exact fun ts hts => h ts ((hiff ts).1 hts)
  | some ts => exact ⟨(hiff ts).2 h.1, fun ts' hts' => h.2 ts' ((hiff ts').1 hts')⟩

/-- A report of `n`, and the earliest one with it. -/
theorem Keeps.of_report {ts best : τ} (hts : R.ts hop = some ts)
    (hbest : R.Reports members (hops ++ [hop]) n best)
    (hold : ∀ ts', R.Reports members hops n ts' → R.lt ts' best = false)
    (hnew : R.lt ts best = false) : R.Keeps members (hops ++ [hop]) n (some best) := by
  refine ⟨hbest, fun ts' hts' => ?_⟩
  rcases reports_append.1 hts' with hprev | ⟨-, he, -⟩
  · exact hold ts' hprev
  · obtain rfl := Option.some.inj (hts.symm.trans he)
    exact hnew

theorem nodup_observe {obs : Dict String τ} (h : (Dict.keys obs).Nodup) :
    (Dict.keys (R.observe members obs hop)).Nodup := by
  unfold observe
  dsimp only
  split
  · exact h
  · split
    · exact h
    · split
      · exact Dict.nodup_set h _ _
      · split
        · exact Dict.nodup_set h _ _
        · exact h

theorem observe_keeps (hR : R.Strict) {obs : Dict String τ}
    (h : R.Keeps members hops n (Dict.get obs n)) :
    R.Keeps members (hops ++ [hop]) n (Dict.get (R.observe members obs hop) n) := by
  unfold observe
  dsimp only
  cases hts : R.ts hop with
  | none => exact h.skip fun ts hc => by rw [hts] at hc; cases hc.2.1
  | some ts =>
    dsimp only
    by_cases hmem : strip ((R.node hop).getD "") ∈ members
    · rw [if_neg (not_not.2 hmem)]
      by_cases hn : strip ((R.node hop).getD "") = n
      · subst hn
        have hnew : R.Reports members (hops ++ [hop]) (strip ((R.node hop).getD "")) ts :=
          reports_append.2 (.inr ⟨hmem, hts, rfl⟩)
        cases hget : Dict.get obs (strip ((R.node hop).getD "")) with
        | none =>
          -- the first report of this member
          rw [hget] at h
          dsimp only
          rw [Dict.get_set_self]
          exact .of_report hts hnew (fun ts' hold => absurd hold (h ts')) (hR.irrefl ts)
        | some known =>
          rw [hget] at h
          dsimp only
          by_cases hlt : R.lt ts known = true
          · rw [if_pos hlt, Dict.get_set_self]
            refine .of_report hts hnew (fun ts' hold => ?_) (hR.irrefl ts)
            cases hlt' : R.lt ts' ts with
            | false => rfl
            | true => exact absurd (hR.trans hlt' hlt) (by rw [h.2 ts' hold]; decide)
          · rw [if_neg hlt, hget]
            exact .of_report hts (reports_append.2 (.inl h.1)) h.2 (by simpa using hlt)
      · -- another member's hop
        have hskip : R.Keeps members (hops ++ [hop]) n _ := h.skip fun ts hc => hn hc.2.2
        split
        · rwa [Dict.get_set_ne _ _ hn]
        · split
          · rwa [Dict.get_set_ne _ _ hn]
          · exact hskip
    · rw [if_pos hmem]
      exact h.skip fun ts hc => hmem (hc.2.2 ▸ hc.1)

/-- The loop over the hops keeps the earliest report of each member. -/
theorem observations_keep (hR : R.Strict) (members : List String) (hops : List η) :
    (Dict.keys (hops.foldl (R.observe members) [])).Nodup ∧
      ∀ n, R.Keeps members hops n (Dict.get (hops.foldl (R.observe members) []) n) := by
  induction hops using List.reverseRecOn with
  | nil => exact ⟨List.nodup_nil, fun n ts hts => by obtain ⟨-, hop, hmem, -⟩ := hts; cases hmem⟩
  | append_singleton hops hop ih =>
    obtain ⟨hnodup, hkeeps⟩ := ih
    rw [List.foldl_append, List.foldl_cons, List.foldl_nil]
    exact ⟨nodup_observe hnodup, fun n => observe_keeps hR (hkeeps n)⟩

end HopReading

theorem floats_strict : floats.Strict := ⟨Flt.lt_irrefl, Flt.lt_trans⟩

/-! ## Exact numbers -/

/-- A hop with an exact timestamp. -/
structure ExactHop where
  node : Option String
  ts : Option ℚ
  deriving DecidableEq

def rationals : HopReading ExactHop ℚ :=
  ⟨ExactHop.node, ExactHop.ts, fun a b => decide (a < b), fun a b => (a + b) / 2, 0⟩

/-- `str(hop.get("node") or "").strip()`. -/
def ExactHop.nodeId (hop : ExactHop) : String := strip (hop.node.getD "")

/-- The members with a hop that has a timestamp. -/
def observers (members : List String) (hops : List ExactHop) : Finset String :=
  members.toFinset.filter fun n => ∃ hop ∈ hops, hop.ts.isSome ∧ hop.nodeId = n

/-- `ts` is the earliest timestamp among the hops of the member `n`. -/
structure Earliest (members : List String) (hops : List ExactHop) (n : String) (ts : ℚ) : Prop where
  member : n ∈ members
  attained : ∃ hop ∈ hops, hop.ts = some ts ∧ hop.nodeId = n
  least : ∀ hop ∈ hops, hop.nodeId = n → ∀ ts', hop.ts = some ts' → ts ≤ ts'

section Exact
variable {members : List String} {hops hops' : List ExactHop} {n : String} {ts : ℚ}

theorem mem_observers : n ∈ observers members hops ↔
    n ∈ members ∧ ∃ hop ∈ hops, hop.ts.isSome ∧ hop.nodeId = n := by
  unfold observers
  rw [Finset.mem_filter, List.mem_toFinset]

theorem rationals_strict : rationals.Strict where
  irrefl := fun x => decide_eq_false (lt_irrefl x)
  trans := by
    intro x y z hxy hyz
    exact decide_eq_true (lt_trans (of_decide_eq_true hxy) (of_decide_eq_true hyz))

theorem Earliest.unique {ts' : ℚ} (h : Earliest members hops n ts) (h' : Earliest members hops n ts') :
    ts = ts' := by
  obtain ⟨hop, hmem, hts, hn⟩ := h.attained
  obtain ⟨hop', hmem', hts', hn'⟩ := h'.attained
  exact le_antisymm (h.least hop' hmem' hn' ts' hts') (h'.least hop hmem hn ts hts)

/-- The observations hold the earliest timestamps. -/
theorem get_observations (members : List String) (hops : List ExactHop) (n : String) (ts : ℚ) :
    Dict.get (hops.foldl (rationals.observe members) []) n = some ts ↔ Earliest members hops n ts := by
  have hkeeps := (HopReading.observations_keep rationals_strict members hops).2 n
  have hearliest : ∀ ts, Dict.get (hops.foldl (rationals.observe members) []) n = some ts →
      Earliest members hops n ts := by
    intro ts hget
    rw [hget] at hkeeps
    obtain ⟨⟨hm, hattained⟩, hleast⟩ := hkeeps
    refine ⟨hm, hattained, fun hop hmem hn ts' hts' => ?_⟩
    exact not_lt.1 (of_decide_eq_false (hleast ts' ⟨hm, hop, hmem, hts', hn⟩))
  refine ⟨hearliest ts, fun h => ?_⟩
  cases hget : Dict.get (hops.foldl (rationals.observe members) []) n with
  | none =>
    rw [hget] at hkeeps
    exact absurd ⟨h.member, h.attained⟩ (hkeeps ts)
  | some ts' => rw [(hearliest ts' hget).unique h]

theorem nodup_observations (members : List String) (hops : List ExactHop) :
    (Dict.keys (hops.foldl (rationals.observe members) [])).Nodup :=
  (HopReading.observations_keep rationals_strict members hops).1

theorem exists_earliest : n ∈ observers members hops ↔ ∃ ts, Earliest members hops n ts := by
  rw [mem_observers]
  constructor
  · rintro ⟨hm, hop, hmem, hsome, hn⟩
    obtain ⟨ts, hts⟩ := Option.isSome_iff_exists.1 hsome
    have hkeeps := (HopReading.observations_keep rationals_strict members hops).2 n
    cases hget : Dict.get (hops.foldl (rationals.observe members) []) n with
    | none =>
      rw [hget] at hkeeps
      exact absurd ⟨hm, hop, hmem, hts, hn⟩ (hkeeps ts)
    | some ts' => exact ⟨ts', (get_observations members hops n ts').1 hget⟩
  · rintro ⟨ts, hm, ⟨hop, hmem, hts, hn⟩, -⟩
    exact ⟨hm, hop, hmem, by rw [hts]; rfl, hn⟩

/-- As many observations as observers. -/
theorem length_observations (members : List String) (hops : List ExactHop) :
    (hops.foldl (rationals.observe members) []).length = (observers members hops).card := by
  have hset : (Dict.keys (hops.foldl (rationals.observe members) [])).toFinset =
      observers members hops := by
    ext n
    rw [List.mem_toFinset, Dict.mem_keys, exists_earliest]
    exact exists_congr fun ts => get_observations members hops n ts
  rw [← hset, List.toFinset_card_of_nodup (nodup_observations members hops), Dict.keys,
    List.length_map]

theorem rationals_consensusTimestamp (members : List String) (quorum : Nat) (hops : List ExactHop) :
    rationals.consensusTimestamp members quorum hops =
      if (observers members hops).card < quorum then none
      else some (rationals.median (Dict.values (hops.foldl (rationals.observe members) []))) := by
  unfold HopReading.consensusTimestamp
  dsimp only
  rw [length_observations]

/-! ## The median -/

/-- The sort of `median` over the rationals. -/
theorem sorted_rationals (values : List ℚ) : (ListSort.sorted rationals.lt values).Pairwise (· ≤ ·) := by
  have R : ListSort.Respects rationals.lt (· ≤ ·) :=
    ⟨le_trans, fun h => (of_decide_eq_true h).le, fun h => not_lt.1 (of_decide_eq_false h)⟩
  exact ListSort.pairwise_sorted R values

theorem median_perm_exact {values values' : List ℚ} (h : values.Perm values') :
    rationals.median values = rationals.median values' := by
  have hsame : ListSort.sorted rationals.lt values = ListSort.sorted rationals.lt values' := by
    refine List.Perm.eq_of_pairwise (fun a b _ _ hab hba => le_antisymm hab hba)
      (sorted_rationals values) (sorted_rationals values') ?_
    exact (ListSort.sorted_perm values).trans (h.trans (ListSort.sorted_perm values').symm)
  unfold HopReading.median
  rw [hsame]

theorem central_median {values : List ℚ} (hne : values ≠ []) : Central values (rationals.median values) := by
  have hperm := @ListSort.sorted_perm _ rationals.lt values
  have hs := sorted_rationals values
  have hpos : 0 < (ListSort.sorted rationals.lt values).length := by
    rw [hperm.length_eq]
    exact List.length_pos_of_ne_nil hne
  refine Central.perm ?_ hperm
  unfold HopReading.median
  dsimp only
  generalize ListSort.sorted rationals.lt values = l at hs hpos ⊢
  have hmid : l.length / 2 < l.length := by omega
  have hlow : l.length / 2 - 1 < l.length := by omega
  split
  · rename_i hodd
    rw [List.getD_eq_getElem _ _ hmid]
    exact central_middle hs hodd hmid
  · rename_i heven
    rw [List.getD_eq_getElem _ _ hmid, List.getD_eq_getElem _ _ hlow]
    have hle : l[l.length / 2 - 1] ≤ l[l.length / 2] := by
      exact List.pairwise_iff_getElem.1 hs _ _ hlow hmid (by omega)
    refine central_between hs hlow hmid (by omega) ?_ ?_
    · show _ ≤ (_ + _) / 2
      linarith
    · show (_ + _) / 2 ≤ _
      linarith

/-! ## Robustness -/

/-- The laws of a timestamp over exact numbers. -/
structure TimestampLaws (members : List String) (quorum : Nat) (hops : List ExactHop) : Prop where
  /-- It is missing exactly below the quorum. -/
  none_iff : rationals.consensusTimestamp members quorum hops = none ↔
    (observers members hops).card < quorum
  /-- It depends on the earliest timestamps of the members only. -/
  earliest : ∀ hops', (∀ n ts, Earliest members hops n ts ↔ Earliest members hops' n ts) →
    rationals.consensusTimestamp members quorum hops = rationals.consensusTimestamp members quorum hops'
  /-- Not on the order of the hops, -/
  order : ∀ hops', hops.Perm hops' →
    rationals.consensusTimestamp members quorum hops = rationals.consensusTimestamp members quorum hops'
  /-- nor on a hop of an outsider, -/
  outsider : ∀ pre hop post, hops = pre ++ hop :: post → hop.nodeId ∉ members →
    rationals.consensusTimestamp members quorum hops =
      rationals.consensusTimestamp members quorum (pre ++ post)
  /-- nor on a hop later than another one of its node. -/
  later : ∀ pre hop post, hops = pre ++ hop :: post → ∀ ts, hop.ts = some ts →
    (∃ first ∈ pre ++ post, first.nodeId = hop.nodeId ∧ ∃ ts' ≤ ts, first.ts = some ts') →
    rationals.consensusTimestamp members quorum hops =
      rationals.consensusTimestamp members quorum (pre ++ post)
  /-- No minority of the observers moves it out of the range of the others. -/
  robust : ∀ v, rationals.consensusTimestamp members quorum hops = some v →
    ∀ F ⊆ observers members hops, 2 * F.card < (observers members hops).card →
      (∃ n ∈ observers members hops \ F, ∃ ts, Earliest members hops n ts ∧ ts ≤ v) ∧
      ∃ n ∈ observers members hops \ F, ∃ ts, Earliest members hops n ts ∧ v ≤ ts

theorem consensusTimestamp_earliest (quorum : Nat)
    (h : ∀ n ts, Earliest members hops n ts ↔ Earliest members hops' n ts) :
    rationals.consensusTimestamp members quorum hops =
      rationals.consensusTimestamp members quorum hops' := by
  have hperm : (hops.foldl (rationals.observe members) []).Perm
      (hops'.foldl (rationals.observe members) []) := by
    refine Dict.perm_of_get_eq (nodup_observations _ _) (nodup_observations _ _) fun n => ?_
    refine Option.ext fun ts => ?_
    rw [get_observations, get_observations, h]
  have hmedian : rationals.median (Dict.values (hops.foldl (rationals.observe members) [])) =
      rationals.median (Dict.values (hops'.foldl (rationals.observe members) [])) :=
    median_perm_exact (hperm.map Prod.snd)
  unfold HopReading.consensusTimestamp
  dsimp only
  rw [hperm.length_eq, hmedian]

/-- Hops with one set of reports have the same earliest timestamps. -/
theorem earliest_congr (hsub : ∀ hop ∈ hops', hop ∈ hops)
    (hcover : ∀ hop ∈ hops, hop.nodeId ∈ members → ∀ ts, hop.ts = some ts →
      ∃ hop' ∈ hops', hop'.nodeId = hop.nodeId ∧ ∃ ts' ≤ ts, hop'.ts = some ts') (n : String) (ts : ℚ) :
    Earliest members hops n ts ↔ Earliest members hops' n ts := by
  constructor
  · rintro ⟨hm, ⟨hop, hmem, hts, hn⟩, hleast⟩
    obtain ⟨hop', hmem', hn', ts', hle, hts'⟩ := hcover hop hmem (hn ▸ hm) ts hts
    have hge := hleast hop' (hsub hop' hmem') (hn'.trans hn) ts' hts'
    refine ⟨hm, ⟨hop', hmem', by rw [hts', le_antisymm hle hge], hn'.trans hn⟩, ?_⟩
    exact fun hop hmem => hleast hop (hsub hop hmem)
  · rintro ⟨hm, ⟨hop, hmem, hts, hn⟩, hleast⟩
    refine ⟨hm, ⟨hop, hsub hop hmem, hts, hn⟩, fun hop₂ hmem₂ hn₂ ts₂ hts₂ => ?_⟩
    obtain ⟨hop', hmem', hn', ts', hle, hts'⟩ := hcover hop₂ hmem₂ (hn₂ ▸ hm) ts₂ hts₂
    exact (hleast hop' hmem' (hn'.trans hn₂) ts' hts').trans hle

theorem mem_of_removed {pre post : List ExactHop} {hop : ExactHop} :
    ∀ hop' ∈ pre ++ post, hop' ∈ pre ++ hop :: post := by
  intro hop' hmem
  rw [List.mem_append] at hmem
  rw [List.mem_append, List.mem_cons]
  tauto

/-- A hop that is not the first of its node's, or of no member, can go. -/
theorem earliest_removed {pre post : List ExactHop} {hop : ExactHop}
    (h : hop.nodeId ∈ members → ∀ ts, hop.ts = some ts →
      ∃ first ∈ pre ++ post, first.nodeId = hop.nodeId ∧ ∃ ts' ≤ ts, first.ts = some ts')
    (n : String) (ts : ℚ) :
    Earliest members (pre ++ hop :: post) n ts ↔ Earliest members (pre ++ post) n ts := by
  refine earliest_congr mem_of_removed (fun hop' hmem hm ts hts => ?_) n ts
  by_cases heq : hop' = hop
  · subst heq
    exact h hm ts hts
  · have hmem' : hop' ∈ pre ++ post := by
      rw [List.mem_append, List.mem_cons] at hmem
      rw [List.mem_append]
      tauto
    exact ⟨hop', hmem', rfl, ts, le_rfl, hts⟩

/-- **Timestamps are robust.** Over exact numbers and for every quorum of at
least one. -/
theorem consensusTimestamp_robust (members : List String) {quorum : Nat} (hquorum : 1 ≤ quorum)
    (hops : List ExactHop) : TimestampLaws members quorum hops where
  none_iff := by
    rw [rationals_consensusTimestamp]
    simp
  earliest := fun _ h => consensusTimestamp_earliest quorum h
  order := by
    intro hops' hperm
    refine consensusTimestamp_earliest quorum (earliest_congr (fun hop => hperm.mem_iff.2) ?_)
    exact fun hop hmem _ ts hts => ⟨hop, hperm.mem_iff.1 hmem, rfl, ts, le_rfl, hts⟩
  outsider := by
    rintro pre hop post rfl hout
    exact consensusTimestamp_earliest quorum (earliest_removed fun hm => absurd hm hout)
  later := by
    rintro pre hop post rfl ts hts ⟨first, hmem, hn, ts', hle, hts'⟩
    refine consensusTimestamp_earliest quorum (earliest_removed fun _ ts₂ hts₂ => ?_)
    obtain rfl := Option.some.inj (hts.symm.trans hts₂)
    exact ⟨first, hmem, hn, ts', hle, hts'⟩
  robust := by
    intro v hv F _ hF
    rw [rationals_consensusTimestamp] at hv
    have hlen := length_observations members hops
    have hnodup := nodup_observations members hops
    have hget := get_observations members hops
    set obs := hops.foldl (rationals.observe members) []
    split at hv
    · cases hv
    · rename_i hcard
      obtain rfl := Option.some.inj hv
      have hne : Dict.values obs ≠ [] := by
        intro hnil
        have hzero := congrArg List.length hnil
        rw [Dict.values, List.length_map, hlen, List.length_nil] at hzero
        omega
      have hc := central_median hne
      rw [← hlen] at hF
      constructor
      · obtain ⟨n, ts, hn, hnF, hle⟩ := hc.exists_le hnodup hF
        have hearliest := (hget n ts).1 hn
        exact ⟨n, Finset.mem_sdiff.2 ⟨exists_earliest.2 ⟨ts, hearliest⟩, hnF⟩, ts, hearliest, hle⟩
      · obtain ⟨n, ts, hn, hnF, hle⟩ := hc.exists_ge hnodup hF
        have hearliest := (hget n ts).1 hn
        exact ⟨n, Finset.mem_sdiff.2 ⟨exists_earliest.2 ⟨ts, hearliest⟩, hnF⟩, ts, hearliest, hle⟩

end Exact

/-- Three members report, one of them twice and one with a wild value. -/
def wildHops : List ExactHop :=
  [⟨some "a", some 4⟩, ⟨some " b ", some 1000⟩, ⟨some "c", some 6⟩, ⟨some "a", some 3⟩,
    ⟨some "x", some 0⟩, ⟨some "c", none⟩]

theorem consensusTimestamp_robust_wild :
    rationals.consensusTimestamp ["a", "b", "c"] 3 wildHops = some 6 ∧
      TimestampLaws ["a", "b", "c"] 3 wildHops :=
  ⟨by decide +kernel, consensusTimestamp_robust ["a", "b", "c"] (by decide) wildHops⟩

end Mdrj.L2
