import Mdrj.Core.Flood
import Mdrj.L4Node.ClearTokens

/-!
# The flood of a clear request

A node that accepts a request to clear the journal sends it to all its peers,
and so does each of them. `L4Node.ClearTokens` says how often a node clears;
here it is who clears, and how much is sent.

Results:
* `clear_reaches_peers`: with fixed peers, and clients that let their requests
  be passed on, the messages that were taken off the network and those on it
  are one for each peer of each clear; and in a run that loses none of them,
  once none is on its way every node that can be reached through peers from
  one that cleared has cleared.
* `clear_flood_ends`: with fixed peers, where the whole flood falls within
  300 s of each node's clock and fewer than 128 other tokens are in use, a
  node clears at most once, and the messages of the flood are at most the
  number of links.
-/
namespace Mdrj.L4.ClearTokens
open Mdrj.Core Mdrj.L1

/-! ## The network, seen from one token -/

variable {ι : Type} {g : Group ι} {token : String} {peers : ι → List ι}

/-- The nodes to which a request with the token is on its way. -/
def Group.awaited (g : Group ι) (token : String) : List ι :=
  (g.inFlight.filter fun message => message.2 = token).map Prod.fst

/-- How often a node has cleared with the token. -/
def Group.times (g : Group ι) (token : String) (i : ι) : ℕ := ((g.nodes i).cleared.map Prod.fst).count token

def Group.Cleared (g : Group ι) (token : String) (i : ι) : Prop := token ∈ (g.nodes i).cleared.map Prod.fst

/-- The messages with the token that a step takes off the network. -/
def Group.taken (token : String) (g : Group ι) : ClearAct ι → ℕ
  | .request .. => 0
  | .deliver k _ _ | .lose k => if (g.inFlight[k]?).map Prod.snd = some token then 1 else 0

/-- The peers of a node stay the same. -/
def Group.FixedPeers (peers : ι → List ι) (g : Group ι) : ClearAct ι → Prop
  | .request i _ _ _ ps => ps = peers i
  | .deliver k _ ps => ∀ i used, g.inFlight[k]? = some (i, used) → ps = peers i
  | .lose _ => True

/-- A node sends to its peers, and a client that clears with the token does not
ask for the request to be kept local. -/
def Group.Floods (peers : ι → List ι) (token : String) (g : Group ι) : ClearAct ι → Prop
  | .request i used propagate _ ps => ps = peers i ∧ (used = token → propagate = true)
  | .deliver k _ ps => ∀ i used, g.inFlight[k]? = some (i, used) → ps = peers i
  | .lose _ => True

/-- A step that loses no message with the token. -/
def Group.Keeps (token : String) (g : Group ι) : ClearAct ι → Prop
  | .lose k => ∀ i, g.inFlight[k]? ≠ some (i, token)
  | _ => True

/-- The tokens a node keeps are among those it has cleared with. -/
def Group.Known (g : Group ι) : Prop := ∀ j, ∀ k ∈ Dict.keys (g.nodes j).tokens, g.Cleared k j

theorem mem_awaited {j : ι} : j ∈ g.awaited token ↔ (j, token) ∈ g.inFlight := by
  unfold Group.awaited
  simp

/-- What a message taken off the network leaves on it. -/
theorem mem_awaited_erase {k : ℕ} {message : ι × String} (hk : g.inFlight[k]? = some message) {j : ι}
    (hj : j ∈ g.awaited token) :
    j = message.1 ∧ message.2 = token ∨ j ∈ { g with inFlight := g.inFlight.eraseIdx k }.awaited token := by
  obtain ⟨hlt, hget⟩ := List.getElem?_eq_some_iff.1 hk
  rw [mem_awaited] at hj ⊢
  have hperm := List.getElem_cons_eraseIdx_perm hlt
  rcases List.mem_cons.1 (hperm.mem_iff.2 hj) with hfirst | hrest
  · rw [hget] at hfirst
    exact .inl ⟨congrArg Prod.fst hfirst, (congrArg Prod.snd hfirst).symm⟩
  · exact .inr hrest

theorem length_awaited_erase (g : Group ι) (token : String) (k : ℕ) :
    ({ g with inFlight := g.inFlight.eraseIdx k }.awaited token).length +
      (if (g.inFlight[k]?).map Prod.snd = some token then 1 else 0) = (g.awaited token).length := by
  unfold Group.awaited
  dsimp only
  cases hk : g.inFlight[k]? with
  | none => simp [List.eraseIdx_of_length_le (List.getElem?_eq_none_iff.1 hk)]
  | some message =>
    obtain ⟨hlt, hget⟩ := List.getElem?_eq_some_iff.1 hk
    have hperm := ((List.getElem_cons_eraseIdx_perm hlt).filter fun m => decide (m.2 = token)).length_eq
    rw [hget] at hperm
    rw [List.length_map, List.length_map, ← hperm, List.filter_cons]
    by_cases hsame : message.2 = token
    · simp [hsame]
    · simp [hsame]

theorem cleared_of_times {i : ι} : g.Cleared token i ↔ 0 < g.times token i := by
  unfold Group.Cleared Group.times
  exact List.count_pos_iff.symm

/-! ## What a call does -/

theorem keys_pop_subset (tokens : Dict String Flt) (key : String) :
    ∀ k ∈ Dict.keys (pop tokens key), k ∈ Dict.keys tokens := by
  intro k hk
  obtain ⟨p, hp, rfl⟩ := List.mem_map.1 hk
  exact List.mem_map_of_mem (List.mem_filter.1 hp).1

theorem keys_foldl_pop_subset (keys : List String) (tokens : Dict String Flt) :
    ∀ k ∈ Dict.keys (keys.foldl pop tokens), k ∈ Dict.keys tokens := by
  rw [foldl_pop]
  intro k hk
  obtain ⟨p, hp, rfl⟩ := List.mem_map.1 hk
  exact List.mem_map_of_mem (List.mem_filter.1 hp).1

/-- Whatever the clock reads, only a kept token is rejected, and no token is
kept but those that were and the accepted one. -/
theorem markClearToken_keys (tokens : Dict String Flt) (token : String) (now : Flt) :
    ((markClearToken tokens token now).2 = false → token ∈ Dict.keys tokens) ∧
      ∀ k ∈ Dict.keys (markClearToken tokens token now).1,
        k ∈ Dict.keys tokens ∨ (markClearToken tokens token now).2 = true ∧ k = token := by
  have hold := keys_foldl_pop_subset ((tokens.filter fun p => p.2.lt (now.sub (.fin 300))).map Prod.fst) tokens
  unfold markClearToken
  dsimp only
  generalize ((tokens.filter fun p => p.2.lt (now.sub (.fin 300))).map Prod.fst).foldl pop tokens = kept at hold ⊢
  have hset : ∀ k ∈ Dict.keys (Dict.set kept token now), k ∈ Dict.keys tokens ∨ k = token := by
    intro k hk
    rcases Dict.mem_keys_set.1 hk with rfl | hk
    · exact .inr rfl
    · exact .inl (hold k hk)
  split
  · rename_i hsome
    exact ⟨fun _ => hold token (Dict.mem_keys.2 (Option.isSome_iff_exists.1 hsome)), fun k hk => .inl (hold k hk)⟩
  · split
    · split
      · refine ⟨fun h => by simp at h, fun k hk => ?_⟩
        exact (hset k (keys_pop_subset _ _ k hk)).imp_right fun h => ⟨rfl, h⟩
      · exact ⟨fun h => by simp at h, fun k hk => (hset k hk).imp_right fun h => ⟨rfl, h⟩⟩
    · exact ⟨fun h => by simp at h, fun k hk => (hset k hk).imp_right fun h => ⟨rfl, h⟩⟩

variable [DecidableEq ι]

/-- A rejected or blank token changes no clears and sends nothing; an accepted
one is executed, and sent on. -/
theorem clearEvents_cases (g : Group ι) (i : ι) (token : String) (propagate : Bool) (now : ℚ) (ps : List ι) :
    ((g.clearEvents i token propagate now ps).inFlight = g.inFlight ∧
      (∀ j, ((g.clearEvents i token propagate now ps).nodes j).cleared = (g.nodes j).cleared) ∧
      (∀ j k, k ∈ Dict.keys ((g.clearEvents i token propagate now ps).nodes j).tokens →
        k ∈ Dict.keys (g.nodes j).tokens) ∧
      (token = "" ∨ token ∈ Dict.keys (g.nodes i).tokens)) ∨
    ((g.clearEvents i token propagate now ps).inFlight =
        g.inFlight ++ (if propagate then ps.map fun j => (j, token) else []) ∧
      (∀ j, ((g.clearEvents i token propagate now ps).nodes j).cleared =
        if j = i then (g.nodes i).cleared ++ [(token, now)] else (g.nodes j).cleared) ∧
      (∀ j k, k ∈ Dict.keys ((g.clearEvents i token propagate now ps).nodes j).tokens →
        k ∈ Dict.keys (g.nodes j).tokens ∨ j = i ∧ k = token)) := by
  obtain ⟨hreject, hkeys⟩ := markClearToken_keys (g.nodes i).tokens token (.fin now)
  unfold Group.clearEvents ClearState.mark
  by_cases hblank : token = ""
  · rw [if_pos hblank]
    exact .inl ⟨rfl, fun _ => rfl, fun _ _ h => h, .inl hblank⟩
  · rw [if_neg hblank]
    cases hmark : markClearToken (g.nodes i).tokens token (.fin now) with
    | mk tokens accepted =>
      rw [hmark] at hreject hkeys
      cases accepted with
      | false =>
        refine .inl ⟨by simp, fun j => ?_, fun j k => ?_, .inr (hreject rfl)⟩
        · rcases eq_or_ne j i with rfl | hj
          · simp
          · simp [Function.update_of_ne hj]
        · rcases eq_or_ne j i with rfl | hj
          · simpa using fun hk => (hkeys k hk).resolve_right (by simp)
          · simp [Function.update_of_ne hj]
      | true =>
        refine .inr ⟨by cases propagate <;> simp, fun j => ?_, fun j k => ?_⟩
        · rcases eq_or_ne j i with rfl | hj
          · cases propagate <;> simp
          · cases propagate <;> simp [hj]
        · rcases eq_or_ne j i with rfl | hj
          · cases propagate <;> simpa using hkeys k
          · cases propagate <;> simp +contextual [hj]

/-! ## Who clears -/

theorem clearEvents_known (h : g.Known) (i : ι) (used : String) (propagate : Bool) (now : ℚ) (ps : List ι) :
    (g.clearEvents i used propagate now ps).Known := by
  intro j k hk
  unfold Group.Cleared
  rcases clearEvents_cases g i used propagate now ps with ⟨-, hcleared, hkeys, -⟩ | ⟨-, hcleared, hkeys⟩
  · rw [hcleared]
    exact h j k (hkeys j k hk)
  · rw [hcleared]
    rcases hkeys j k hk with hold | ⟨rfl, rfl⟩
    · have hin := h j k hold
      split
      · rename_i hj
        subst hj
        rw [List.map_append]
        exact List.mem_append_left _ hin
      · exact hin
    · rw [if_pos rfl]
      simp

/-- A call for a token, when the messages for it are those in `waiting` and
one to the node that is called. -/
theorem clearEvents_covered (hknown : g.Known) (htoken : token ≠ "") {waiting : List ι}
    (h : Flood.Covered peers (g.Cleared token) waiting) {i : ι} {used : String}
    (hwaiting : ∀ j ∈ waiting, j = i ∧ used = token ∨ j ∈ g.awaited token) {propagate : Bool}
    (hpropagate : used = token → propagate = true) (now : ℚ) :
    Flood.Covered peers ((g.clearEvents i used propagate now (peers i)).Cleared token)
      ((g.clearEvents i used propagate now (peers i)).awaited token) := by
  rcases clearEvents_cases g i used propagate now (peers i) with ⟨hsent, hcleared, -, hreason⟩ | ⟨hsent, hcleared, -⟩
  · have hsame : (g.clearEvents i used propagate now (peers i)).Cleared token = g.Cleared token := by
      funext j
      unfold Group.Cleared
      rw [hcleared]
    have hawaited : (g.clearEvents i used propagate now (peers i)).awaited token = g.awaited token := by
      unfold Group.awaited
      rw [hsent]
    rw [hsame, hawaited]
    by_cases hused : used = token
    · subst hused
      exact h.drop (hknown i used (hreason.resolve_left htoken)) fun j hj => (hwaiting j hj).imp_left And.left
    · intro j hj k hk
      refine (h j hj k hk).imp_right fun hmem => ?_
      exact (hwaiting k hmem).resolve_left fun heq => hused heq.2
  · by_cases hused : used = token
    · subst hused
      have hdone : ∀ j, (g.clearEvents i used propagate now (peers i)).Cleared used j ↔ j = i ∨ g.Cleared used j := by
        intro j
        unfold Group.Cleared
        rw [hcleared]
        split
        · rename_i hj
          subst hj
          simp
        · rename_i hj
          simp [hj]
      refine h.accept hdone (fun j hj => (hwaiting j hj).imp And.left fun hold => ?_) fun j hj => ?_
      · rw [mem_awaited] at hold ⊢
        rw [hsent]
        exact List.mem_append_left _ hold
      · rw [mem_awaited, hsent, hpropagate rfl, if_pos rfl]
        exact List.mem_append_right _ (List.mem_map.2 ⟨j, hj, rfl⟩)
    · have hdone : ∀ j, (g.clearEvents i used propagate now (peers i)).Cleared token j ↔ g.Cleared token j := by
        intro j
        unfold Group.Cleared
        rw [hcleared]
        split
        · rename_i hj
          subst hj
          simp [Ne.symm hused]
        · rfl
      intro j hj k hk
      rw [hdone k]
      refine (h j ((hdone j).1 hj) k hk).imp_right fun hmem => ?_
      have hold := (hwaiting k hmem).resolve_left fun heq => hused heq.2
      rw [mem_awaited] at hold ⊢
      rw [hsent]
      exact List.mem_append_left _ hold

/-- The tokens that are kept are known, and the messages with the token cover
the peers of the nodes that cleared with it. -/
structure Group.Spreads (peers : ι → List ι) (token : String) (g : Group ι) : Prop where
  known : g.Known
  covered : Flood.Covered peers (g.Cleared token) (g.awaited token)

theorem spreads_step (htoken : token ≠ "") (g : Group ι) (act : ClearAct ι) (h : g.Spreads peers token)
    (hok : Group.Floods peers token g act ∧ Group.Keeps token g act) : (g.step act).Spreads peers token := by
  obtain ⟨hfloods, hkeeps⟩ := hok
  cases act with
  | request i used propagate now ps =>
    obtain ⟨rfl, hpropagate⟩ := hfloods
    exact ⟨clearEvents_known h.known _ _ _ _ _,
      clearEvents_covered h.known htoken h.covered (fun j hj => .inr hj) hpropagate now⟩
  | deliver k now ps =>
    simp only [Group.step]
    cases hk : g.inFlight[k]? with
    | none => exact h
    | some message =>
      obtain ⟨i, used⟩ := message
      obtain rfl := hfloods i used hk
      have hknown : { g with inFlight := g.inFlight.eraseIdx k }.Known := h.known
      refine ⟨clearEvents_known hknown _ _ _ _ _, ?_⟩
      exact clearEvents_covered hknown htoken h.covered (fun j hj => mem_awaited_erase hk hj) (fun _ => rfl) now
  | lose k =>
    refine ⟨h.known, fun j hj i hi => ?_⟩
    refine (h.covered j hj i hi).imp_right fun hmem => ?_
    cases hk : g.inFlight[k]? with
    | none =>
      rw [mem_awaited] at hmem ⊢
      simpa only [Group.step, List.eraseIdx_of_length_le (List.getElem?_eq_none_iff.1 hk)] using hmem
    | some message =>
      refine (mem_awaited_erase hk hmem).resolve_left fun heq => hkeeps message.1 ?_
      rw [hk, ← heq.2]

/-! ## How much is sent -/

/-- One message for each peer of each clear. -/
def Group.sent [Fintype ι] (peers : ι → List ι) (token : String) (g : Group ι) : ℕ :=
  ∑ i, g.times token i * (peers i).length

/-- A clear with the token sends one message to each peer, unless it is kept
local. -/
theorem clearEvents_account [Fintype ι] (peers : ι → List ι) (token : String) (g : Group ι) (i : ι) (used : String)
    (propagate : Bool) (now : ℚ) :
    ∃ links, (used ≠ token → links = 0) ∧
      (g.clearEvents i used propagate now (peers i)).sent peers token = g.sent peers token + links ∧
      ((g.clearEvents i used propagate now (peers i)).awaited token).length =
        (g.awaited token).length + if propagate then links else 0 := by
  unfold Group.sent Group.times
  rcases clearEvents_cases g i used propagate now (peers i) with ⟨hsent, hcleared, -⟩ | ⟨hsent, hcleared, -⟩
  · have hawaited : (g.clearEvents i used propagate now (peers i)).awaited token = g.awaited token := by
      unfold Group.awaited
      rw [hsent]
    exact ⟨0, fun _ => rfl, by simp only [hcleared, Nat.add_zero], by simp only [hawaited, ite_self, Nat.add_zero]⟩
  · have hmessages : ((g.clearEvents i used propagate now (peers i)).awaited token).length =
        (g.awaited token).length + if propagate then (if used = token then (peers i).length else 0) else 0 := by
      unfold Group.awaited
      rw [hsent, List.filter_append, List.map_append, List.length_append]
      by_cases hused : used = token
      · cases propagate <;> simp [hused, List.filter_map, Function.comp_def]
      · cases propagate <;> simp [hused]
    have htimes : ∀ j, (((g.clearEvents i used propagate now (peers i)).nodes j).cleared.map Prod.fst).count token *
          (peers j).length =
        ((g.nodes j).cleared.map Prod.fst).count token * (peers j).length +
          if j = i then (if used = token then (peers i).length else 0) else 0 := by
      intro j
      rw [hcleared]
      by_cases hj : j = i
      · subst hj
        rw [if_pos rfl, if_pos rfl, List.map_append, List.count_append, Nat.add_mul]
        by_cases hused : used = token
        · simp [hused]
        · simp [hused]
      · rw [if_neg hj, if_neg hj, Nat.add_zero]
    refine ⟨if used = token then (peers i).length else 0, fun hused => if_neg hused, ?_, hmessages⟩
    rw [Finset.sum_congr rfl fun j _ => htimes j, Finset.sum_add_distrib, Finset.sum_ite_eq' Finset.univ i,
      if_pos (Finset.mem_univ i)]

/-- What a step takes off the network, and what it puts on it: for each clear a
message to each peer, where a client lets the request be passed on. -/
theorem step_account [Fintype ι] (token : String) (g : Group ι) (act : ClearAct ι) (hok : Group.FixedPeers peers g act) :
    ∃ links withheld, (g.step act).sent peers token = g.sent peers token + links ∧
      ((g.step act).awaited token).length + Group.taken token g act + withheld =
        (g.awaited token).length + links ∧
      (Group.Floods peers token g act → withheld = 0) := by
  cases act with
  | request i used propagate now ps =>
    obtain rfl := hok
    obtain ⟨links, hzero, hsent, hawaited⟩ := clearEvents_account peers token g i used propagate now
    refine ⟨links, if propagate then 0 else links, hsent, ?_, fun hfloods => ?_⟩
    · cases propagate
      · exact congrArg (· + links) hawaited
      · exact hawaited
    · obtain ⟨-, hpropagate⟩ := hfloods
      cases propagate
      · exact hzero fun hused => absurd (hpropagate hused) (by decide)
      · rfl
  | deliver k now ps =>
    simp only [Group.step, Group.taken]
    have herase := length_awaited_erase g token k
    cases hk : g.inFlight[k]? with
    | none => exact ⟨0, 0, rfl, by simp, fun _ => rfl⟩
    | some message =>
      obtain ⟨i, used⟩ := message
      obtain rfl := hok i used hk
      obtain ⟨links, -, hsent, hawaited⟩ := clearEvents_account peers token
        { g with inFlight := g.inFlight.eraseIdx k } i used true now
      refine ⟨links, 0, hsent, ?_, fun _ => rfl⟩
      rw [hk] at herase
      rw [if_pos rfl] at hawaited
      dsimp only
      omega
  | lose k =>
    have herase := length_awaited_erase g token k
    exact ⟨0, 0, rfl, by simp only [Group.step, Group.taken]; omega, fun _ => rfl⟩

omit [DecidableEq ι] in
theorem sent_start [Fintype ι] (peers : ι → List ι) (clock : ι → ℚ) (token : String) :
    (Group.start clock).sent peers token = 0 := by
  unfold Group.sent Group.times Group.start
  simp

omit [DecidableEq ι] in
theorem Group.Floods.fixed {act : ClearAct ι} (h : Group.Floods peers token g act) : Group.FixedPeers peers g act := by
  cases act with
  | request i used propagate now ps => exact h.1
  | deliver k now ps => exact h
  | lose k => trivial

theorem bounded_run [Fintype ι] (peers : ι → List ι) (clock : ι → ℚ) (token : String) {actions : List (ClearAct ι)}
    (hfixed : Admits Group.step (Group.FixedPeers peers) (Group.start clock) actions) :
    ((run Group.step (Group.start clock) actions).awaited token).length +
        Flood.tally Group.step (Group.taken token) (Group.start clock) actions ≤
      (run Group.step (Group.start clock) actions).sent peers token := by
  have h := Flood.run_account (· ≤ ·) le_refl le_trans (by omega) (Group.taken token)
    (fun g => (g.awaited token).length) (fun g => g.sent peers token) (fun g act hok => by
      obtain ⟨links, withheld, hsent, hawaited, -⟩ := step_account token g act hok
      omega) hfixed
  rw [sent_start] at h
  simpa [Group.start, Group.awaited] using h

theorem balanced_run [Fintype ι] (peers : ι → List ι) (clock : ι → ℚ) (token : String) {actions : List (ClearAct ι)}
    (hfloods : Admits Group.step (Group.Floods peers token) (Group.start clock) actions) :
    ((run Group.step (Group.start clock) actions).awaited token).length +
        Flood.tally Group.step (Group.taken token) (Group.start clock) actions =
      (run Group.step (Group.start clock) actions).sent peers token := by
  have h := Flood.run_account (· = ·) (fun _ => rfl) Eq.trans (by omega) (Group.taken token)
    (fun g => (g.awaited token).length) (fun g => g.sent peers token) (fun g act hok => by
      obtain ⟨links, withheld, hsent, hawaited, hzero⟩ := step_account token g act hok.fixed
      have := hzero hok
      omega) hfloods
  rw [sent_start] at h
  simpa [Group.start, Group.awaited] using h

/-- **A clear reaches everyone.** For every run of a group with fixed peers
whose clients let the requests with a token be passed on, in any order of
deliveries and with any clock readings: the messages with the token that were
taken off the network and those still on it are together one for each peer of
each clear with it; and where none of them was lost and none is left, every
node within reach of one that cleared has cleared. -/
theorem clear_reaches_peers [Fintype ι] (peers : ι → List ι) (clock : ι → ℚ) (token : String) (htoken : token ≠ "")
    (actions : List (ClearAct ι))
    (hfloods : Admits Group.step (Group.Floods peers token) (Group.start clock) actions) :
    ((run Group.step (Group.start clock) actions).awaited token).length +
        Flood.tally Group.step (Group.taken token) (Group.start clock) actions =
      (run Group.step (Group.start clock) actions).sent peers token ∧
    (Admits Group.step (Group.Keeps token) (Group.start clock) actions →
      (run Group.step (Group.start clock) actions).awaited token = [] →
      ∀ i j, (run Group.step (Group.start clock) actions).Cleared token i →
        Relation.ReflTransGen (fun a b => b ∈ peers a) i j →
        (run Group.step (Group.start clock) actions).Cleared token j) := by
  refine ⟨balanced_run peers clock token hfloods, ?_⟩
  intro hkeeps hquiet i j hi hreach
  have hstart : (Group.start clock).Spreads peers token := by
    refine ⟨fun j k hk => absurd hk ?_, Flood.covered_start fun i hi => ?_⟩
    · simp [Group.start]
    · simp [Group.Cleared, Group.start] at hi
  have hspreads := run_invariant (spreads_step htoken) hstart (hfloods.and hkeeps)
  exact hspreads.covered.reach hi hreach fun k hk => by rw [hquiet] at hk; exact absurd hk List.not_mem_nil

/-- Two nodes that are each other's only peer. -/
def other (b : Bool) : List Bool := [!b]

theorem cycle_first : ((Group.start fun _ : Bool => 0).step (.request false "a" true 1000 [true])).inFlight[0]? =
    some (true, "a") := by decide +kernel

theorem cycle_second : (((Group.start fun _ : Bool => 0).step (.request false "a" true 1000 [true])).step
    (.deliver 0 1001 [false])).inFlight[0]? = some (false, "a") := by decide +kernel

theorem cycle_floods : Admits Group.step (Group.Floods other "a") (Group.start fun _ => 0) cycle := by
  refine ⟨⟨rfl, fun _ => rfl⟩, ?_, ?_, trivial⟩
  · intro i used h
    obtain ⟨rfl, rfl⟩ := Prod.mk.inj (Option.some.inj (cycle_first.symm.trans h))
    rfl
  · intro i used h
    obtain ⟨rfl, rfl⟩ := Prod.mk.inj (Option.some.inj (cycle_second.symm.trans h))
    rfl

theorem clear_reaches_peers_cycle :
    (run Group.step (Group.start fun _ => 0) cycle).sent other "a" = 2 ∧
      (run Group.step (Group.start fun _ => 0) cycle).Cleared "a" true := by
  have h := clear_reaches_peers other (fun _ => 0) "a" (by decide) cycle cycle_floods
  refine ⟨h.1.symm.trans (by decide +kernel), ?_⟩
  have hkeeps : Admits Group.step (Group.Keeps "a") (Group.start fun _ => 0) cycle := ⟨trivial, trivial, trivial, trivial⟩
  refine h.2 hkeeps (by decide +kernel) false true ?_ (.single (by decide))
  rw [cleared_of_times]
  decide +kernel

/-! ## A flood within 300 s -/

/-- The clears with the token, and the arrivals of requests with it, are in the
300 s from `t i` by the clock of node `i`. -/
def Group.During (token : String) (tokens : Finset String) (t : ι → ℚ) (g : Group ι) : ClearAct ι → Prop
  | .request i used _ now _ => used ∈ tokens ∧ (used = token → t i ≤ now ∧ now ≤ t i + 300)
  | .deliver k now _ => ∀ i, g.inFlight[k]? = some (i, token) → t i ≤ now ∧ now ≤ t i + 300
  | .lose _ => True

/-- Where the tokens come from, and when the token is used. -/
structure Group.Within (token : String) (tokens : Finset String) (t : ι → ℚ) (g : Group ι) : Prop where
  cleared : ∀ i, ∀ p ∈ (g.nodes i).cleared, p.1 ∈ tokens ∧ (p.1 = token → t i ≤ p.2 ∧ p.2 ≤ t i + 300)
  messages : ∀ message ∈ g.inFlight, message.2 ∈ tokens

variable {tokens : Finset String} {t : ι → ℚ}

theorem clearEvents_within (h : g.Within token tokens t) {i : ι} {used : String} (hused : used ∈ tokens) {now : ℚ}
    (hnow : used = token → t i ≤ now ∧ now ≤ t i + 300) (propagate : Bool) (ps : List ι) :
    (g.clearEvents i used propagate now ps).Within token tokens t := by
  rcases clearEvents_cases g i used propagate now ps with ⟨hsent, hcleared, -⟩ | ⟨hsent, hcleared, -⟩
  · refine ⟨fun j p hp => ?_, fun message hm => ?_⟩
    · rw [hcleared] at hp
      exact h.cleared j p hp
    · rw [hsent] at hm
      exact h.messages message hm
  · refine ⟨fun j p hp => ?_, fun message hm => ?_⟩
    · rw [hcleared] at hp
      split at hp
      · rename_i hj
        subst hj
        rcases List.mem_append.1 hp with hold | hnew
        · exact h.cleared j p hold
        · rw [List.mem_singleton.1 hnew]
          exact ⟨hused, hnow⟩
      · exact h.cleared j p hp
    · rw [hsent] at hm
      rcases List.mem_append.1 hm with hold | hnew
      · exact h.messages message hold
      · split at hnew
        · obtain ⟨j, -, rfl⟩ := List.mem_map.1 hnew
          exact hused
        · exact absurd hnew List.not_mem_nil

theorem within_step (g : Group ι) (act : ClearAct ι) (h : g.Within token tokens t)
    (hok : Group.During token tokens t g act) : (g.step act).Within token tokens t := by
  have herase : ∀ k, { g with inFlight := g.inFlight.eraseIdx k }.Within token tokens t := fun k =>
    ⟨h.cleared, fun message hm => h.messages message (List.mem_of_mem_eraseIdx hm)⟩
  cases act with
  | request i used propagate now ps => exact clearEvents_within h hok.1 hok.2 propagate ps
  | deliver k now ps =>
    simp only [Group.step]
    cases hk : g.inFlight[k]? with
    | none => exact h
    | some message =>
      obtain ⟨i, used⟩ := message
      refine clearEvents_within (herase k) (h.messages _ (List.mem_of_getElem? hk)) (fun heq => ?_) true ps
      exact hok i (hk.trans (congrArg (fun key => some (i, key)) heq))
  | lose k => exact herase k

/-- Two entries with one key, in the order of the list. -/
theorem split_of_two_le_count {cleared : List (String × ℚ)} (h : 2 ≤ (cleared.map Prod.fst).count token) :
    ∃ before t between t' after, cleared = before ++ (token, t) :: between ++ (token, t') :: after := by
  have hsub := List.duplicate_iff_sublist.1 (List.duplicate_iff_two_le_count.2 h)
  obtain ⟨pair, hpair, hkeys⟩ := List.sublist_map_iff.1 hsub
  obtain ⟨x, rest, rfl, hx, hrest⟩ := List.map_eq_cons_iff.1 hkeys.symm
  obtain ⟨y, none, rfl, hy, hnone⟩ := List.map_eq_cons_iff.1 hrest
  obtain rfl := List.map_eq_nil_iff.1 hnone
  obtain ⟨key, s⟩ := x
  obtain ⟨key', s'⟩ := y
  obtain ⟨rfl, rfl⟩ : key = token ∧ key' = token := ⟨hx, hy⟩
  obtain ⟨first, second, rfl, hxmem, hysub⟩ := List.cons_sublist_iff.1 hpair
  obtain ⟨before, between, rfl⟩ := List.append_of_mem hxmem
  obtain ⟨between', after, rfl⟩ := List.append_of_mem (List.singleton_sublist.1 hysub)
  exact ⟨before, s, between ++ between', s', after, by simp⟩

omit [DecidableEq ι] in
/-- Within the window a second clear would need 128 other tokens. -/
theorem times_le_one (hspaced : ∀ i, Spaced (g.nodes i).cleared) (h : g.Within token tokens t)
    (hfew : (tokens.erase token).card < 128) (i : ι) : g.times token i ≤ 1 := by
  by_contra htwice
  have hcount : 2 ≤ ((g.nodes i).cleared.map Prod.fst).count token := by
    change 2 ≤ g.times token i
    omega
  obtain ⟨before, s, between, s', after, hsplit⟩ := split_of_two_le_count hcount
  have hmem : ∀ p ∈ before ++ (token, s) :: between ++ (token, s') :: after,
      p.1 ∈ tokens ∧ (p.1 = token → t i ≤ p.2 ∧ p.2 ≤ t i + 300) := hsplit ▸ h.cleared i
  rcases hspaced i before token s between s' after hsplit with hlate | hmany
  · have hfirst := (hmem (token, s) (by simp)).2 rfl
    have hsecond := (hmem (token, s') (by simp)).2 rfl
    linarith [hfirst.1, hsecond.2]
  · have hsub : (between.map Prod.fst).toFinset.erase token ⊆ tokens.erase token := by
      refine Finset.erase_subset_erase _ fun key hkey => ?_
      obtain ⟨p, hp, rfl⟩ := List.mem_map.1 (List.mem_toFinset.1 hkey)
      exact (hmem p (by simp [hp])).1
    have hcard := Finset.card_le_card hsub
    unfold Many at hmany
    omega

omit [DecidableEq ι] in
theorem start_inv (clock : ι → ℚ) : (Group.start clock).Inv :=
  fun _ => ⟨kept_start _, fun _ _ _ _ _ _ h => by simp [Group.start] at h⟩

/-- **The flood ends.** In every run with fixed peers and non-decreasing clocks
in which the requests with a token fall within 300 s by each node's clock and fewer than 128
other tokens are used, every node clears with the token at most once, and the
messages taken off the network and those still on it are at most the number of
links. -/
theorem clear_flood_ends [Fintype ι] (peers : ι → List ι) (clock : ι → ℚ) (token : String) (tokens : Finset String)
    (t : ι → ℚ) (actions : List (ClearAct ι)) (hfew : (tokens.erase token).card < 128)
    (htimely : Admits Group.step Group.Timely (Group.start clock) actions)
    (hfixed : Admits Group.step (Group.FixedPeers peers) (Group.start clock) actions)
    (hduring : Admits Group.step (Group.During token tokens t) (Group.start clock) actions) :
    (∀ i, (run Group.step (Group.start clock) actions).times token i ≤ 1) ∧
    ((run Group.step (Group.start clock) actions).awaited token).length +
        Flood.tally Group.step (Group.taken token) (Group.start clock) actions ≤ ∑ i, (peers i).length := by
  have hinv : (run Group.step (Group.start clock) actions).Inv :=
    run_invariant Group.step_inv (start_inv clock) htimely
  have hstart : (Group.start clock).Within token tokens t :=
    ⟨fun i p hp => by simp [Group.start] at hp, fun m hm => by simp [Group.start] at hm⟩
  have hwithin := run_invariant within_step hstart hduring
  have honce := times_le_one (fun i => (hinv i).2) hwithin hfew
  refine ⟨honce, ?_⟩
  refine (bounded_run peers clock token hfixed).trans ?_
  unfold Group.sent
  refine Finset.sum_le_sum fun i _ => ?_
  calc (run Group.step (Group.start clock) actions).times token i * (peers i).length
      ≤ 1 * (peers i).length := Nat.mul_le_mul_right _ (honce i)
    _ = (peers i).length := Nat.one_mul _

theorem clear_flood_ends_cycle :
    (run Group.step (Group.start fun _ => 0) cycle).times "a" true ≤ 1 ∧
    ((run Group.step (Group.start fun _ => 0) cycle).awaited "a").length +
      Flood.tally Group.step (Group.taken "a") (Group.start fun _ => 0) cycle ≤ 2 := by
  have hduring : Admits Group.step (Group.During "a" {"a"} fun _ => 1000) (Group.start fun _ => 0) cycle := by
    refine ⟨⟨by decide, fun _ => by norm_num⟩, ?_, ?_, trivial⟩
    · intro i _
      norm_num
    · intro i _
      norm_num
  obtain ⟨honce, hsent⟩ := clear_flood_ends other (fun _ => 0) "a" {"a"} (fun _ => 1000) cycle (by decide)
    cycle_timely (cycle_floods.imp fun _ _ _ h => h.fixed) hduring
  exact ⟨honce true, hsent.trans_eq (by decide)⟩

end Mdrj.L4.ClearTokens
