import Mathlib
import Mdrj.Core.Dict
import Mdrj.Core.Runs
import Mdrj.L1Encoding.Rounding

/-!
# Clear tokens

A request to clear the journal carries a token and is passed on to all
peers, so it comes back to a node once for every cycle it is on. The node
keeps the tokens it has acted on: one older than 300 s is dropped, and of
more than 128 the oldest is dropped.

Results:
* `Kept.mark`: the tokens are in the order in which they were accepted, and a
  token accepted in the last 300 s is kept until 128 others come after it.
* `clear_tokens_deduplicated`: what follows for every sequence of calls, and
  for every run of a group of nodes that pass a request on.
-/
namespace Mdrj.L4.ClearTokens
open Mdrj.Core Mdrj.L1

/-- `min(tokens.items(), key=lambda item: item[1])[0]`: of several smallest
the first. -/
def oldest : Dict String Flt → Option String
  | [] => none
  | p :: rest => some (rest.foldl (fun best q => if q.2.lt best.2 then q else best) p).1

/-- `tokens.pop(key, None)`. -/
def pop (tokens : Dict String Flt) (key : String) : Dict String Flt := tokens.filter fun p => p.1 ≠ key

/-- mirrors mdrj/node.py:969-981 -/
def markClearToken (tokens : Dict String Flt) (token : String) (now : Flt) : Dict String Flt × Bool :=
  let expiry := now.sub (.fin 300)
  let toRemove := (tokens.filter fun p => p.2.lt expiry).map Prod.fst
  let tokens := toRemove.foldl pop tokens
  if (Dict.get tokens token).isSome then (tokens, false)
  else
    let tokens := Dict.set tokens token now
    if 128 < tokens.length then
      match oldest tokens with
      | some key => (pop tokens key, true)
      | none => (tokens, true)
    else (tokens, true)

/-- The tokens of a node, and the clears it has executed, each with the
reading of the clock. -/
structure ClearState where
  tokens : Dict String Flt := []
  cleared : List (String × ℚ) := []

/-- A call of `_mark_clear_token`; the local clear is executed if and only if
the token is accepted. -/
def ClearState.mark (s : ClearState) (token : String) (now : ℚ) : ClearState :=
  match markClearToken s.tokens token (.fin now) with
  | (tokens, true) => { tokens, cleared := s.cleared ++ [(token, now)] }
  | (tokens, false) => { s with tokens }

/-! ## One call -/

/-- The readings of the tokens that are kept, at the time `now`. -/
structure Ordered (tokens : Dict String Flt) (now : ℚ) : Prop where
  nodup : (Dict.keys tokens).Nodup
  times : ∀ p ∈ tokens, ∃ q, p.2 = .fin q ∧ Flt.IsDouble q ∧ q ≤ now
  order : tokens.Pairwise fun a b => b.2.lt a.2 = false

/-- What has not expired. -/
def fresh (tokens : Dict String Flt) (now : ℚ) : Dict String Flt :=
  tokens.filter fun p => !p.2.lt ((Flt.fin now).sub (.fin 300))

theorem foldl_pop (keys : List String) (tokens : Dict String Flt) :
    keys.foldl pop tokens = tokens.filter fun p => p.1 ∉ keys := by
  induction keys generalizing tokens with
  | nil => simp
  | cons key keys ih =>
    rw [List.foldl_cons, ih, pop, List.filter_filter]
    refine List.filter_congr fun p _ => ?_
    simp [Bool.and_comm]

variable {tokens : Dict String Flt} {now : ℚ}

theorem removed_eq (h : (Dict.keys tokens).Nodup) :
    ((tokens.filter fun p => p.2.lt ((Flt.fin now).sub (.fin 300))).map Prod.fst).foldl pop tokens =
      fresh tokens now := by
  rw [foldl_pop, fresh]
  refine List.filter_congr fun p hp => ?_
  have hiff : p.1 ∈ (tokens.filter fun p => p.2.lt ((Flt.fin now).sub (.fin 300))).map Prod.fst ↔
      p.2.lt ((Flt.fin now).sub (.fin 300)) = true := by
    constructor
    · intro hmem
      obtain ⟨q, hq, hkey⟩ := List.mem_map.1 hmem
      obtain ⟨hq, hlt⟩ := List.mem_filter.1 hq
      have hsame := Dict.get_of_mem h (k := q.1) (v := q.2) hq
      rw [hkey, Dict.get_of_mem h (k := p.1) (v := p.2) hp] at hsame
      rw [Option.some.inj hsame]
      exact hlt
    · intro hlt
      exact List.mem_map_of_mem (List.mem_filter.2 ⟨hp, hlt⟩)
  cases hlt : p.2.lt ((Flt.fin now).sub (.fin 300)) with
  | true => simpa using hiff.2 hlt
  | false =>
    have hnot : p.1 ∉ (tokens.filter fun p => p.2.lt ((Flt.fin now).sub (.fin 300))).map Prod.fst := by
      intro hmem
      rw [hiff.1 hmem] at hlt
      cases hlt
    simpa using hnot

theorem oldest_of_order {p : String × Flt} {rest : Dict String Flt}
    (h : (p :: rest).Pairwise fun a b => b.2.lt a.2 = false) : oldest (p :: rest) = some p.1 := by
  have hfirst := (List.pairwise_cons.1 h).1
  have hfold : ∀ rest : Dict String Flt, (∀ q ∈ rest, q.2.lt p.2 = false) →
      rest.foldl (fun best q => if q.2.lt best.2 then q else best) p = p := by
    intro rest hrest
    induction rest with
    | nil => rfl
    | cons q rest ih =>
      rw [List.foldl_cons, if_neg (by rw [hrest q List.mem_cons_self]; decide)]
      exact ih fun r hr => hrest r (List.mem_cons_of_mem _ hr)
  rw [oldest, hfold rest hfirst]

theorem pop_first {p : String × Flt} {rest : Dict String Flt} (h : (Dict.keys (p :: rest)).Nodup) :
    pop (p :: rest) p.1 = rest := by
  have hfirst := (List.nodup_cons.1 h).1
  unfold pop
  rw [List.filter_cons_of_neg (by simp)]
  refine List.filter_eq_self.2 fun q hq => ?_
  have hne : q.1 ≠ p.1 := fun heq => hfirst (heq ▸ List.mem_map_of_mem hq)
  simpa using hne

theorem Ordered.fresh (h : Ordered tokens now) {now' : ℚ} (hle : now ≤ now') : Ordered (fresh tokens now') now' where
  nodup := Dict.nodup_filter h.nodup _
  times p hp := by
    obtain ⟨q, hq, hdouble, hqle⟩ := h.times p (List.mem_filter.1 hp).1
    exact ⟨q, hq, hdouble, hqle.trans hle⟩
  order := h.order.filter _

theorem Ordered.append (h : Ordered tokens now) {token : String} (hnew : token ∉ Dict.keys tokens)
    (hnow : Flt.IsDouble now) : Ordered (tokens ++ [(token, .fin now)]) now where
  nodup := by
    unfold Dict.keys at hnew ⊢
    rw [List.map_append]
    refine List.nodup_append.2 ⟨h.nodup, List.nodup_singleton _, ?_⟩
    intro x hx y hy hxy
    rw [hxy, List.mem_singleton.1 hy] at hx
    exact hnew hx
  times p hp := by
    rcases List.mem_append.1 hp with hp | hp
    · exact h.times p hp
    · rw [List.mem_singleton.1 hp]
      exact ⟨now, rfl, hnow, le_rfl⟩
  order := by
    refine List.pairwise_append.2 ⟨h.order, List.pairwise_singleton _ _, ?_⟩
    intro p hp q hq
    obtain ⟨t, ht, -, hle⟩ := h.times p hp
    rw [List.mem_singleton.1 hq, ht]
    simpa [Flt.lt] using hle

theorem Ordered.tail {p : String × Flt} (h : Ordered (p :: tokens) now) : Ordered tokens now where
  nodup := (List.nodup_cons.1 h.nodup).2
  times q hq := h.times q (List.mem_cons_of_mem _ hq)
  order := (List.pairwise_cons.1 h.order).2

/-- What a call does to tokens in order: expired ones go; a new token comes
last, and of 129 the first goes. -/
theorem markClearToken_cases (h : Ordered tokens now) {now' : ℚ} (hle : now ≤ now') (hnow : Flt.IsDouble now')
    (token : String) :
    (token ∈ Dict.keys (fresh tokens now') ∧
      markClearToken tokens token (.fin now') = (fresh tokens now', false)) ∨
    (token ∉ Dict.keys (fresh tokens now') ∧ (fresh tokens now').length + 1 ≤ 128 ∧
      markClearToken tokens token (.fin now') = (fresh tokens now' ++ [(token, .fin now')], true)) ∨
    (token ∉ Dict.keys (fresh tokens now') ∧ 128 < (fresh tokens now').length + 1 ∧
      ∃ p rest, fresh tokens now' ++ [(token, .fin now')] = p :: rest ∧
        markClearToken tokens token (.fin now') = (rest, true)) := by
  unfold markClearToken
  dsimp only
  rw [removed_eq h.nodup]
  by_cases hmem : token ∈ Dict.keys (fresh tokens now')
  · obtain ⟨v, hv⟩ := Dict.mem_keys.1 hmem
    exact .inl ⟨hmem, by rw [hv]; rfl⟩
  · have hnone := Dict.get_eq_none.2 hmem
    have hordered := (h.fresh hle).append hmem hnow
    rw [hnone, Dict.set_of_notMem hmem, List.length_append, List.length_singleton]
    simp only [Option.isSome_none, Bool.false_eq_true, if_false]
    by_cases hlen : 128 < (fresh tokens now').length + 1
    · rw [if_pos hlen]
      refine .inr (.inr ⟨hmem, hlen, ?_⟩)
      cases hall : fresh tokens now' ++ [(token, .fin now')] with
      | nil => simp at hall
      | cons p rest =>
        rw [hall] at hordered
        refine ⟨p, rest, rfl, ?_⟩
        rw [oldest_of_order hordered.order]
        dsimp only
        rw [pop_first hordered.nodup]
    · rw [if_neg hlen]
      exact .inr (.inl ⟨hmem, by omega, rfl⟩)

/-! ## A sequence of calls -/

/-- At least 128 other tokens. -/
def Many (token : String) (accepted : List (String × ℚ)) : Prop :=
  128 ≤ ((accepted.map Prod.fst).toFinset.erase token).card

instance (token : String) (accepted : List (String × ℚ)) : Decidable (Many token accepted) :=
  inferInstanceAs (Decidable (128 ≤ _))

/-- The token is kept, and what comes after it was accepted since. -/
def Held (tokens : Dict String Flt) (token : String) (t : ℚ) (since : List (String × ℚ)) : Prop :=
  ∃ before after, tokens = before ++ (token, .fin t) :: after ∧ ∀ p ∈ after, p.1 ∈ since.map Prod.fst

/-- What a node knows of the clears it has executed. -/
structure Kept (s : ClearState) (now : ℚ) : Prop extends Ordered s.tokens now where
  bounded : s.tokens.length ≤ 128
  recent : ∀ before token t since, s.cleared = before ++ (token, t) :: since →
    t + 300 < now ∨ Held s.tokens token t since ∨ Many token since
  doubles : ∀ p ∈ s.cleared, Flt.IsDouble p.2

theorem Many.append {token : String} {accepted : List (String × ℚ)} (h : Many token accepted)
    (more : List (String × ℚ)) : Many token (accepted ++ more) := by
  refine le_trans h (Finset.card_le_card (Finset.erase_subset_erase _ ?_))
  intro x hx
  rw [List.mem_toFinset, List.map_append] at *
  exact List.mem_append_left _ hx

/-- A token that is not older than 300 s is not expired: the rounded limit
does not exceed its reading. -/
theorem not_expired {t : ℚ} (ht : Flt.IsDouble t) (h : now ≤ t + 300) :
    (Flt.fin t).lt ((Flt.fin now).sub (.fin 300)) = false := by
  have hsub : (Flt.fin now).sub (.fin 300) = Flt.ofRat (now + -300) := rfl
  have hround : Flt.ofRat t = .fin t := ht
  rw [hsub, ← hround]
  exact Flt.ofRat_mono (by linarith)

theorem Held.fresh {token : String} {t : ℚ} {since : List (String × ℚ)} (h : Held tokens token t since)
    (ht : Flt.IsDouble t) (hle : now ≤ t + 300) : Held (fresh tokens now) token t since := by
  obtain ⟨before, after, rfl, hafter⟩ := h
  refine ⟨ClearTokens.fresh before now, ClearTokens.fresh after now, ?_, ?_⟩
  · unfold ClearTokens.fresh
    rw [List.filter_append, List.filter_cons_of_pos (by simp [not_expired ht hle])]
  · intro p hp
    exact hafter p (List.mem_filter.1 hp).1

theorem Held.append {token : String} {t : ℚ} {since : List (String × ℚ)} (h : Held tokens token t since)
    (new : String) (now : ℚ) : Held (tokens ++ [(new, .fin now)]) token t (since ++ [(new, now)]) := by
  obtain ⟨before, after, rfl, hafter⟩ := h
  refine ⟨before, after ++ [(new, .fin now)], by simp, ?_⟩
  intro p hp
  rw [List.map_append]
  rcases List.mem_append.1 hp with hp | hp
  · exact List.mem_append_left _ (hafter p hp)
  · rw [List.mem_singleton.1 hp]
    exact List.mem_append_right _ (List.mem_singleton.2 rfl)

/-- The first of the tokens goes: another one, or this one before 128 others. -/
theorem Held.tail {p : String × Flt} {token : String} {t : ℚ} {since : List (String × ℚ)}
    (h : Held (p :: tokens) token t since) (hnodup : (Dict.keys (p :: tokens)).Nodup)
    (hlen : 128 ≤ tokens.length) : Held tokens token t since ∨ Many token since := by
  obtain ⟨before, after, heq, hafter⟩ := h
  cases before with
  | cons q before =>
    obtain ⟨-, rfl⟩ := List.cons.inj heq
    exact .inl ⟨before, after, rfl, hafter⟩
  | nil =>
    obtain ⟨rfl, rfl⟩ := List.cons.inj heq
    obtain ⟨hnew, hrest⟩ := List.nodup_cons.1 hnodup
    refine .inr (le_trans (?_ : 128 ≤ (Dict.keys tokens).toFinset.card) (Finset.card_le_card ?_))
    · have hcard : (Dict.keys tokens).toFinset.card = tokens.length :=
        (List.toFinset_card_of_nodup hrest).trans (List.length_map _)
      omega
    · intro x hx
      rw [List.mem_toFinset] at hx
      obtain ⟨q, hq, rfl⟩ := List.mem_map.1 hx
      refine Finset.mem_erase.2 ⟨fun heq => hnew (heq ▸ hx), ?_⟩
      rw [List.mem_toFinset]
      exact hafter q hq

theorem Held.mem {token : String} {t : ℚ} {since : List (String × ℚ)} (h : Held tokens token t since) :
    token ∈ Dict.keys tokens := by
  obtain ⟨before, after, rfl, -⟩ := h
  unfold Dict.keys
  simp

/-- A token accepted in the last 300 s is rejected, unless 128 others were
accepted since. -/
theorem Kept.rejects {s : ClearState} (h : Kept s now) {before since : List (String × ℚ)} {token : String} {t : ℚ}
    (hcleared : s.cleared = before ++ (token, t) :: since) {now' : ℚ} (hle : now ≤ now')
    (hnow : Flt.IsDouble now') (hlimit : now' ≤ t + 300) :
    (markClearToken s.tokens token (.fin now')).2 = false ∨ Many token since := by
  have ht : Flt.IsDouble t := h.doubles (token, t) (by rw [hcleared]; simp)
  rcases h.recent before token t since hcleared with hold | hheld | hmany
  · linarith
  · have hmem := (hheld.fresh ht hlimit).mem
    rcases markClearToken_cases h.toOrdered hle hnow token with ⟨-, hmark⟩ | ⟨hnot, -⟩ | ⟨hnot, -⟩
    · exact .inl (by rw [hmark])
    · exact absurd hmem hnot
    · exact absurd hmem hnot
  · exact .inr hmany

/-- Each executed clear is over, its token is held, or 128 others were accepted
since. -/
def Remembered (tokens : List (String × Flt)) (cleared : List (String × ℚ)) (now : ℚ) : Prop :=
  ∀ before token t since, cleared = before ++ (token, t) :: since →
    t + 300 < now ∨ Held tokens token t since ∨ Many token since

theorem Kept.remembered_fresh {s : ClearState} (h : Kept s now) {now' : ℚ} (hle : now ≤ now') :
    Remembered (fresh s.tokens now') s.cleared now' := by
  intro before token t since hcleared
  rcases lt_or_ge (t + 300) now' with hold | hlimit
  · exact .inl hold
  · rcases h.recent before token t since hcleared with hold | hheld | hmany
    · linarith
    · have ht : Flt.IsDouble t := h.doubles (token, t) (by rw [hcleared]; simp)
      exact .inr (.inl (hheld.fresh ht hlimit))
    · exact .inr (.inr hmany)

theorem Remembered.append {cleared : List (String × ℚ)} (h : Remembered tokens cleared now) (token : String) :
    Remembered (tokens ++ [(token, .fin now)]) (cleared ++ [(token, now)]) now := by
  intro before key t since hcleared
  rcases split_concat hcleared with ⟨rfl, rfl, hentry⟩ | ⟨since', rfl, hold⟩
  · obtain ⟨hkey, ht⟩ := Prod.mk.inj hentry
    exact .inr (.inl ⟨tokens, [], by rw [hkey, ht], by simp⟩)
  · rcases h before key t since' hold with hlate | hheld | hmany
    · exact .inl hlate
    · exact .inr (.inl (hheld.append token now))
    · exact .inr (.inr (hmany.append _))

theorem Remembered.tail {p : String × Flt} {cleared : List (String × ℚ)} (h : Remembered (p :: tokens) cleared now)
    (hnodup : (Dict.keys (p :: tokens)).Nodup) (hlen : 128 ≤ tokens.length) : Remembered tokens cleared now := by
  intro before key t since hcleared
  rcases h before key t since hcleared with hlate | hheld | hmany
  · exact .inl hlate
  · exact .inr (hheld.tail hnodup hlen)
  · exact .inr (.inr hmany)

theorem Kept.mark {s : ClearState} (h : Kept s now) {now' : ℚ} (hle : now ≤ now') (hnow : Flt.IsDouble now')
    (token : String) : Kept (s.mark token now') now' := by
  have hfresh := h.toOrdered.fresh hle
  have hrecent := h.remembered_fresh hle
  have hdoubles : ∀ p ∈ s.cleared ++ [(token, now')], Flt.IsDouble p.2 := by
    intro p hp
    rcases List.mem_append.1 hp with hp | hp
    · exact h.doubles p hp
    · rw [List.mem_singleton.1 hp]
      exact hnow
  have hlength : (fresh s.tokens now').length ≤ 128 := (List.length_filter_le _ _).trans h.bounded
  unfold ClearState.mark
  rcases markClearToken_cases h.toOrdered hle hnow token with ⟨-, hmark⟩ | ⟨hnew, hlen, hmark⟩ |
    ⟨hnew, hlen, p, rest, hsplit, hmark⟩
  · rw [hmark]
    exact ⟨hfresh, hlength, hrecent, h.doubles⟩
  · rw [hmark]
    exact ⟨hfresh.append hnew hnow, by simpa using hlen, hrecent.append token, hdoubles⟩
  · rw [hmark]
    -- the token in front is forgotten
    have hordered := hfresh.append hnew hnow
    have hall := hrecent.append token
    have hrest : rest.length = (fresh s.tokens now').length := by
      have := congrArg List.length hsplit
      simpa using this.symm
    rw [hsplit] at hordered hall
    exact ⟨hordered.tail, by dsimp only; omega, hall.tail hordered.nodup (by omega), hdoubles⟩

theorem kept_start (now : ℚ) : Kept {} now where
  nodup := List.nodup_nil
  times p hp := absurd hp List.not_mem_nil
  order := List.Pairwise.nil
  bounded := Nat.zero_le _
  recent before token t since h := by simp at h
  doubles p hp := absurd hp List.not_mem_nil

/-- Two clears with one token are more than 300 s apart, or 128 other tokens
were accepted between them. -/
def Spaced (cleared : List (String × ℚ)) : Prop :=
  ∀ before token t between t' after, cleared = before ++ (token, t) :: between ++ (token, t') :: after →
    t + 300 < t' ∨ Many token between

theorem Spaced.mark {s : ClearState} (h : Spaced s.cleared) (hkept : Kept s now) {now' : ℚ} (hle : now ≤ now')
    (hnow : Flt.IsDouble now') (token : String) : Spaced (s.mark token now').cleared := by
  unfold ClearState.mark
  cases hmark : markClearToken s.tokens token (.fin now') with
  | mk tokens accepted =>
    cases accepted with
    | false => exact h
    | true =>
      intro before key t between t' after hcleared
      rcases split_concat hcleared with ⟨-, hfirst, hentry⟩ | ⟨after', rfl, hold⟩
      · obtain ⟨rfl, rfl⟩ := Prod.mk.inj hentry
        rcases lt_or_ge (t + 300) t' with hlate | hlimit
        · exact .inl hlate
        · rcases hkept.rejects hfirst.symm hle hnow hlimit with hrejected | hmany
          · rw [hmark] at hrejected
            cases hrejected
          · exact .inr hmany
      · exact h before key t between t' after' hold

/-! ## A group of nodes -/

/-- The nodes of a group, the last reading of each clock, and the requests on
their way. -/
structure Group (ι : Type) where
  nodes : ι → ClearState
  clock : ι → ℚ
  inFlight : List (ι × String)

variable {ι : Type}

def Group.start (clock : ι → ℚ) : Group ι := { nodes := fun _ => {}, clock, inFlight := [] }

/-- A call of `clear_events` by a client, a request of another node that
arrives or is lost. `peers` are those of the node at the time. -/
inductive ClearAct (ι : Type) where
  | request (i : ι) (token : String) (propagate : Bool) (now : ℚ) (peers : List ι)
  | deliver (k : Nat) (now : ℚ) (peers : List ι)
  | lose (k : Nat)

variable [DecidableEq ι]

/-- An accepted request is executed and passed on to all peers.
mirrors mdrj/node.py:983-991, 2407-2428 -/
def Group.clearEvents (g : Group ι) (i : ι) (token : String) (propagate : Bool) (now : ℚ) (peers : List ι) :
    Group ι :=
  if token = "" then g  -- `ValueError("clear token required")`
  else
    let nodes := Function.update g.nodes i ((g.nodes i).mark token now)
    let clock := Function.update g.clock i now
    if (markClearToken (g.nodes i).tokens token (.fin now)).2 ∧ propagate then
      { nodes, clock, inFlight := g.inFlight ++ peers.map fun j => (j, token) }
    else { g with nodes, clock }

def Group.step (g : Group ι) : ClearAct ι → Group ι
  | .request i token propagate now peers => g.clearEvents i token propagate now peers
  | .deliver k now peers =>
    match g.inFlight[k]? with
    | some (i, token) => { g with inFlight := g.inFlight.eraseIdx k }.clearEvents i token true now peers
    | none => g
  | .lose k => { g with inFlight := g.inFlight.eraseIdx k }

/-- The reading of a clock is a double, and not before the last one. -/
def Group.Timely (g : Group ι) : ClearAct ι → Prop
  | .request i _ _ now _ => g.clock i ≤ now ∧ Flt.IsDouble now
  | .deliver k now _ => ∀ i token, g.inFlight[k]? = some (i, token) → g.clock i ≤ now ∧ Flt.IsDouble now
  | .lose _ => True

def Group.Inv (g : Group ι) : Prop := ∀ i, Kept (g.nodes i) (g.clock i) ∧ Spaced (g.nodes i).cleared

theorem Group.Inv.clearEvents {g : Group ι} (h : g.Inv) {i : ι} {now : ℚ} (hle : g.clock i ≤ now)
    (hnow : Flt.IsDouble now) (token : String) (propagate : Bool) (peers : List ι) :
    (g.clearEvents i token propagate now peers).Inv := by
  have hnode : Kept ((g.nodes i).mark token now) now ∧ Spaced ((g.nodes i).mark token now).cleared :=
    ⟨(h i).1.mark hle hnow token, (h i).2.mark (h i).1 hle hnow token⟩
  unfold Group.clearEvents
  split
  · exact h
  · have hnodes : ∀ j, Kept (Function.update g.nodes i ((g.nodes i).mark token now) j)
          (Function.update g.clock i now j) ∧
        Spaced (Function.update g.nodes i ((g.nodes i).mark token now) j).cleared := by
      intro j
      by_cases hj : j = i
      · subst hj
        rw [Function.update_self, Function.update_self]
        exact hnode
      · rw [Function.update_of_ne hj, Function.update_of_ne hj]
        exact h j
    dsimp only
    split
    · exact hnodes
    · exact hnodes

theorem Group.step_inv (g : Group ι) (act : ClearAct ι) (h : g.Inv) (hok : g.Timely act) : (g.step act).Inv := by
  cases act with
  | request i token propagate now peers => exact h.clearEvents hok.1 hok.2 token propagate peers
  | deliver k now peers =>
    simp only [Group.step]
    cases hk : g.inFlight[k]? with
    | none => exact h
    | some message =>
      obtain ⟨i, token⟩ := message
      obtain ⟨hle, hnow⟩ := hok i token hk
      exact Group.Inv.clearEvents (g := { g with inFlight := g.inFlight.eraseIdx k }) h hle hnow token true peers
  | lose k => exact h

/-- Calls of `_mark_clear_token` at one node, one after another. -/
def ClearState.call (s : ClearState) (call : String × ℚ) : ClearState := s.mark call.1 call.2

theorem Kept.later {s : ClearState} (h : Kept s now) {now' : ℚ} (hle : now ≤ now') : Kept s now' where
  nodup := h.nodup
  times p hp := by
    obtain ⟨q, hq, hdouble, hqle⟩ := h.times p hp
    exact ⟨q, hq, hdouble, hqle.trans hle⟩
  order := h.order
  bounded := h.bounded
  recent before token t since hcleared := by
    rcases h.recent before token t since hcleared with hold | hrest
    · exact .inl (hold.trans_le hle)
    · exact .inr hrest
  doubles := h.doubles

theorem kept_calls {calls : List (String × ℚ)} (hdouble : ∀ p ∈ calls, Flt.IsDouble p.2)
    (hclock : calls.Pairwise fun a b => a.2 ≤ b.2) {now : ℚ} (hnow : ∀ p ∈ calls, p.2 ≤ now) :
    Kept (run ClearState.call {} calls) now := by
  induction calls using List.reverseRecOn generalizing now with
  | nil => exact kept_start now
  | append_singleton calls p ih =>
    obtain ⟨hbefore, -, hlast⟩ := List.pairwise_append.1 hclock
    have hprev : Kept (run ClearState.call {} calls) p.2 :=
      ih (fun q hq => hdouble q (List.mem_append_left _ hq)) hbefore fun q hq => hlast q hq p (List.mem_singleton.2 rfl)
    have hp : p ∈ calls ++ [p] := List.mem_append_right _ (List.mem_singleton.2 rfl)
    rw [run_concat]
    exact (hprev.mark le_rfl (hdouble p hp) p.1).later (hnow p hp)

/-- **Clear tokens are de-duplicated.** In every sequence of calls with
non-decreasing readings a token accepted at `t` is rejected up to `t + 300`
unless 128 others were accepted since, and at most 128 are kept; in every run
of a group a node executes two clears of one token only outside these
limits. -/
theorem clear_tokens_deduplicated :
    (∀ calls : List (String × ℚ), (∀ p ∈ calls, Flt.IsDouble p.2) → calls.Pairwise (fun a b => a.2 ≤ b.2) →
      (run ClearState.call {} calls).tokens.length ≤ 128 ∧
      ∀ before token t since, (run ClearState.call {} calls).cleared = before ++ (token, t) :: since →
        ∀ t', (∀ p ∈ calls, p.2 ≤ t') → Flt.IsDouble t' → t' ≤ t + 300 →
          (markClearToken (run ClearState.call {} calls).tokens token (.fin t')).2 = false ∨ Many token since) ∧
    ∀ (ι : Type) [DecidableEq ι] (clock : ι → ℚ) (actions : List (ClearAct ι)),
      Admits Group.step Group.Timely (Group.start clock) actions → ∀ i,
        ((run Group.step (Group.start clock) actions).nodes i).tokens.length ≤ 128 ∧
        Spaced ((run Group.step (Group.start clock) actions).nodes i).cleared := by
  constructor
  · intro calls hdouble hclock
    constructor
    · obtain ⟨last, hlast⟩ : ∃ last : ℚ, ∀ p ∈ calls, p.2 ≤ last := by
        obtain ⟨last, hlast⟩ := (calls.map Prod.snd).toFinset.exists_le
        exact ⟨last, fun p hp => hlast p.2 (List.mem_toFinset.2 (List.mem_map_of_mem hp))⟩
      exact (kept_calls hdouble hclock hlast).bounded
    · intro before token t since hcleared t' ht' hdouble' hlimit
      exact (kept_calls hdouble hclock ht').rejects hcleared le_rfl hdouble' hlimit
  · intro ι _ clock actions hadmits i
    have hstart : (Group.start clock).Inv := fun j => ⟨kept_start _, fun _ _ _ _ _ _ h => by simp [Group.start] at h⟩
    have hinv := run_invariant Group.step_inv hstart hadmits i
    exact ⟨hinv.1.bounded, hinv.2⟩

/-- Two nodes that are each other's only peer. -/
def cycle : List (ClearAct Bool) :=
  [.request false "a" true 1000 [true], .deliver 0 1001 [false], .deliver 0 1002 [true]]

theorem cycle_timely : Admits Group.step Group.Timely (Group.start fun _ => 0) cycle := by
  have h1 : Flt.IsDouble 1000 := by decide +kernel
  have h2 : Flt.IsDouble 1001 := by decide +kernel
  have h3 : Flt.IsDouble 1002 := by decide +kernel
  refine ⟨⟨by norm_num [Group.start], h1⟩, ?_, ?_, trivial⟩
  · intro i token h
    have hfirst : (((Group.start fun _ : Bool => 0).step (.request false "a" true 1000 [true])).inFlight[0]?) =
        some (true, "a") := by decide +kernel
    rw [hfirst] at h
    obtain ⟨rfl, rfl⟩ := Prod.mk.inj (Option.some.inj h)
    exact ⟨by decide +kernel, h2⟩
  · intro i token h
    have hfirst : ((((Group.start fun _ : Bool => 0).step (.request false "a" true 1000 [true])).step
        (.deliver 0 1001 [false])).inFlight[0]?) = some (false, "a") := by decide +kernel
    rw [hfirst] at h
    obtain ⟨rfl, rfl⟩ := Prod.mk.inj (Option.some.inj h)
    exact ⟨by decide +kernel, h3⟩

/-- The request comes back to the node that sent it, and is not executed
again. -/
theorem clear_tokens_deduplicated_cycle :
    ((markClearToken (run ClearState.call {} [("a", 1000)]).tokens "a" (.fin 1300)).2 = false ∨ Many "a" []) ∧
    ((run Group.step (Group.start fun _ => 0) cycle).nodes false).cleared = [("a", 1000)] ∧
    Spaced ((run Group.step (Group.start fun _ => 0) cycle).nodes false).cleared := by
  refine ⟨?_, by decide +kernel, (clear_tokens_deduplicated.2 Bool (fun _ => 0) cycle cycle_timely false).2⟩
  have hdouble : ∀ p ∈ [("a", (1000 : ℚ))], Flt.IsDouble p.2 := by decide +kernel
  exact (clear_tokens_deduplicated.1 [("a", 1000)] hdouble (List.pairwise_singleton _ _)).2 [] "a" 1000 []
    (by decide +kernel) 1300 (by decide +kernel) (by decide +kernel) (by norm_num)

/-- The limit is sharp for the age: the same token 301 s later is executed again. -/
example : (run ClearState.call {} [("a", 1000), ("a", 1300), ("a", 1301)]).cleared = [("a", 1000), ("a", 1301)] := by
  decide +kernel

end Mdrj.L4.ClearTokens
