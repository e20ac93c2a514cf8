import Mathlib
import Mdrj.Core.Dict
import Mdrj.Core.Runs
import Mdrj.L1Encoding.Rounding
import Mdrj.L4Node.AuthLog

/-!
# Bursts of failed logins

For each address the ingestor keeps the times of the failed logins of the
last 120 s. Five of them are a burst, which is reported unless another was
less than 120 s ago; a report clears the times.

The times are doubles, and `datetime` refuses those beyond the year 9999, so
the differences that are compared are exact (`sub_window`, `lt_window`).

Results:
* `Tracks.step`: the times kept are those since the last burst, as far as
  they are not too old.
* `bursts_reported`: bursts are 120 s apart, tell the number of failures
  since the last one, and none is missed.
-/
namespace Mdrj.L4.BurstReports
open Mdrj.Core Mdrj.L1 Mdrj.L3 Mdrj.L4.Ingest

/-! ## Clock arithmetic -/

/-- A reading of the clock that `datetime` accepts, from 1970-01-01 00:02 on. -/
def Handled (t : ℚ) : Prop := Flt.IsDouble t ∧ 120 ≤ t ∧ t < 2 ^ 38

variable {t last : ℚ}

theorem sub_window (h : Handled t) : (Flt.fin t).sub burstWindow = .fin (t - 120) := by
  obtain ⟨hdouble, hlow, hhigh⟩ := h
  have hbound : t < Flt.pow2 53 := by
    rw [Flt.pow2_eq]
    exact hhigh.trans (by norm_num)
  have hexact := Flt.isDouble_sub_int hdouble (n := 120) (by norm_num) (by exact_mod_cast hlow) hbound
  have hcast : t - ((120 : ℤ) : ℚ) = t - 120 := by norm_num
  rw [hcast] at hexact
  have hsub : (Flt.fin t).sub burstWindow = Flt.ofRat (t + -120) := rfl
  rw [hsub, ← sub_eq_add_neg]
  exact hexact

/-- The rounded time since the last burst is less than 120 s if and only if
the time itself is. -/
theorem lt_window (h : Handled t) (hlast : last = 0 ∨ Handled last) (hle : last ≤ t) :
    ((Flt.fin t).sub (.fin last)).lt burstWindow = decide (t - last < 120) := by
  have hsub : (Flt.fin t).sub (.fin last) = Flt.ofRat (t - last) := by
    rw [sub_eq_add_neg]
    rfl
  rw [hsub]
  by_cases hlt : t - last < 120
  · have hexact : Flt.ofRat (t - last) = .fin (t - last) := by
      rcases hlast with rfl | hlast
      · have := h.2.1
        linarith
      · have hpos : 0 < last := lt_of_lt_of_le (by norm_num) hlast.2.1
        have := hlast.2.1
        exact Flt.isDouble_sub_near h.1 hlast.1 hpos hle (by linarith)
    rw [hexact]
    rfl
  · have hround : Flt.ofRat 120 = burstWindow := by decide +kernel
    rw [decide_eq_false hlt, ← hround]
    exact Flt.ofRat_mono (not_lt.1 hlt)

/-! ## What has happened -/

/-- A failed login that was handled, with the number that was reported. -/
structure Failure where
  ip : String
  ts : ℚ
  reported : Option Nat
  deriving DecidableEq

/-- The failures of an address since its last burst. -/
def sinceBurst (ip : String) (failures : List Failure) : List Failure :=
  failures.foldl (fun kept f =>
    if f.ip = ip then (if f.reported.isNone then kept ++ [f] else []) else kept) []

/-- The time of the last burst of an address. -/
def lastBurst (ip : String) (failures : List Failure) : Option ℚ :=
  failures.foldl (fun last f => if f.ip = ip ∧ f.reported.isSome then some f.ts else last) none

theorem sinceBurst_concat (ip : String) (failures : List Failure) (f : Failure) :
    sinceBurst ip (failures ++ [f]) =
      if f.ip = ip then (if f.reported.isNone then sinceBurst ip failures ++ [f] else [])
      else sinceBurst ip failures :=
  List.foldl_concat ..

theorem lastBurst_concat (ip : String) (failures : List Failure) (f : Failure) :
    lastBurst ip (failures ++ [f]) =
      if f.ip = ip ∧ f.reported.isSome then some f.ts else lastBurst ip failures :=
  List.foldl_concat ..

/-- The failures that matter at the time `t`. -/
def inWindow (t : ℚ) (failures : List Failure) : List Failure := failures.filter fun f => t - 120 ≤ f.ts

/-- What the ingestor keeps is what has happened. -/
structure Tracks (bursts : Bursts) (failures : List Failure) (now : ℚ) : Prop where
  times : ∀ f ∈ failures, Handled f.ts ∧ f.ts ≤ now
  order : failures.Pairwise fun f g => f.ts ≤ g.ts
  window : ∀ ip, ∃ cutoff ≤ now - 120, (Dict.get bursts.failedWindow ip).getD [] =
    ((sinceBurst ip failures).filter fun f => cutoff ≤ f.ts).map fun f => .fin f.ts
  emitted : ∀ ip, Dict.get bursts.emittedAt ip = (lastBurst ip failures).map .fin

/-- The number reported for a failure of an address after these. -/
def due (failures : List Failure) (ip : String) (t : ℚ) : Option Nat :=
  let count := (inWindow t (sinceBurst ip failures)).length + 1
  if 5 ≤ count ∧ 120 ≤ t - (lastBurst ip failures).getD 0 then some count else none

theorem due_eq_some_iff {failures : List Failure} {ip : String} {count : Nat} :
    due failures ip t = some count ↔
      5 ≤ count ∧ count = (inWindow t (sinceBurst ip failures)).length + 1 ∧
        120 ≤ t - (lastBurst ip failures).getD 0 := by
  unfold due
  dsimp only
  split
  · next hboth =>
    rw [Option.some.injEq]
    constructor
    · intro heq
      exact ⟨heq ▸ hboth.1, heq.symm, hboth.2⟩
    · intro h
      exact h.2.1.symm
  · next hnot =>
    constructor
    · intro h
      cases h
    · intro h
      exact absurd ⟨h.2.1 ▸ h.1, h.2.2⟩ hnot

theorem lastBurst_mem {failures : List Failure} {ip : String} (h : lastBurst ip failures = some last) :
    ∃ f ∈ failures, f.ip = ip ∧ f.reported.isSome ∧ f.ts = last := by
  induction failures using List.reverseRecOn with
  | nil => cases h
  | append_singleton failures g ih =>
    rw [lastBurst_concat] at h
    split at h
    · next hg => exact ⟨g, by simp, hg.1, hg.2, Option.some.inj h⟩
    · obtain ⟨f, hf, hrest⟩ := ih h
      exact ⟨f, List.mem_append_left _ hf, hrest⟩

theorem sinceBurst_subset {failures : List Failure} {ip : String} {f : Failure} (h : f ∈ sinceBurst ip failures) :
    f ∈ failures := by
  induction failures using List.reverseRecOn with
  | nil => exact absurd h List.not_mem_nil
  | append_singleton failures g ih =>
    rw [sinceBurst_concat] at h
    split at h
    · split at h
      · rcases List.mem_append.1 h with h | h
        · exact List.mem_append_left _ (ih h)
        · exact List.mem_append_right _ h
      · exact absurd h List.not_mem_nil
    · exact List.mem_append_left _ (ih h)

variable {bursts : Bursts} {failures : List Failure} {now : ℚ}

theorem Tracks.lastBurst_handled (h : Tracks bursts failures now) (ip : String) :
    (lastBurst ip failures).getD 0 = 0 ∨
      Handled ((lastBurst ip failures).getD 0) ∧ (lastBurst ip failures).getD 0 ≤ now := by
  cases hlast : lastBurst ip failures with
  | none => exact .inl rfl
  | some last =>
    obtain ⟨f, hf, -, -, rfl⟩ := lastBurst_mem hlast
    exact .inr (h.times f hf)

/-- The times kept of an address after one more failure. -/
theorem Tracks.window_step (h : Tracks bursts failures now) (ht : Handled t) (hle : now ≤ t) (ip : String) :
    ((Dict.get bursts.failedWindow ip).getD [] ++ [Flt.fin t]).filter
        (fun x => !x.lt ((Flt.fin t).sub burstWindow)) =
      (inWindow t (sinceBurst ip failures)).map (fun f => Flt.fin f.ts) ++ [Flt.fin t] := by
  obtain ⟨cutoff, hcutoff, hwindow⟩ := h.window ip
  rw [hwindow, sub_window ht, List.filter_append, List.filter_map, List.filter_filter]
  have hkept : List.filter (fun x : Flt => !x.lt (.fin (t - 120))) [Flt.fin t] = [Flt.fin t] := by
    simp [Flt.lt]
  rw [hkept]
  refine congrArg (fun l : List Failure => l.map (fun f => Flt.fin f.ts) ++ [Flt.fin t]) ?_
  refine List.filter_congr fun f _ => ?_
  -- what is in the window now was not cut off before
  have hiff : (t - 120 ≤ f.ts ∧ cutoff ≤ f.ts) ↔ t - 120 ≤ f.ts := by
    refine ⟨And.left, fun hf => ⟨hf, ?_⟩⟩
    linarith
  simp only [Function.comp_apply, Flt.lt, ← decide_not, not_lt, ← Bool.decide_and, hiff]

/-- The times of an address that are kept after a failure at `t`. -/
def keptTimes (failures : List Failure) (ip : String) (t : ℚ) : List Flt :=
  (inWindow t (sinceBurst ip failures)).map (fun f => Flt.fin f.ts) ++ [Flt.fin t]

theorem Tracks.failed_eq (h : Tracks bursts failures now) (ht : Handled t) (hle : now ≤ t) (ip : String) :
    bursts.failed ip (.fin t) = match due failures ip t with
      | some count => ({ failedWindow := Dict.set bursts.failedWindow ip []
                         emittedAt := Dict.set bursts.emittedAt ip (.fin t) }, some count)
      | none => ({ bursts with
                   failedWindow := Dict.set bursts.failedWindow ip (keptTimes failures ip t) }, none) := by
  have hlength : (keptTimes failures ip t).length = (inWindow t (sinceBurst ip failures)).length + 1 := by
    simp [keptTimes]
  have hlast : ((Flt.fin t).sub ((Dict.get bursts.emittedAt ip).getD (.fin 0))).lt burstWindow =
      decide (t - (lastBurst ip failures).getD 0 < 120) := by
    have hget : (Dict.get bursts.emittedAt ip).getD (.fin 0) = .fin ((lastBurst ip failures).getD 0) := by
      rw [h.emitted ip]
      cases lastBurst ip failures <;> rfl
    rw [hget]
    rcases h.lastBurst_handled ip with hzero | ⟨hhandled, hbefore⟩
    · rw [hzero]
      have := ht.2.1
      exact lt_window ht (.inl rfl) (by linarith)
    · exact lt_window ht (.inr hhandled) (hbefore.trans hle)
  unfold Bursts.failed
  dsimp only
  rw [h.window_step ht hle ip, ← keptTimes, hlength, hlast]
  unfold due burstThreshold
  dsimp only
  by_cases hcount : 5 ≤ (inWindow t (sinceBurst ip failures)).length + 1
  · rw [if_pos hcount]
    by_cases hgap : t - (lastBurst ip failures).getD 0 < 120
    · rw [decide_eq_true hgap, if_pos rfl, if_neg fun hdue => absurd hdue.2 (not_le.2 hgap)]
    · rw [decide_eq_false hgap, if_neg Bool.false_ne_true, if_pos ⟨hcount, not_lt.1 hgap⟩]
  · rw [if_neg hcount, if_neg fun hdue => hcount hdue.1]

/-- What is kept of the other addresses still is what matters later. -/
theorem Tracks.window_later (h : Tracks bursts failures now) (hle : now ≤ t) (ip : String) :
    ∃ cutoff ≤ t - 120, (Dict.get bursts.failedWindow ip).getD [] =
      ((sinceBurst ip failures).filter fun f => cutoff ≤ f.ts).map fun f => Flt.fin f.ts := by
  obtain ⟨cutoff, hcutoff, hwindow⟩ := h.window ip
  exact ⟨cutoff, by linarith, hwindow⟩

/-- One more failure, whatever is reported of it. -/
theorem Tracks.add (h : Tracks bursts failures now) (ht : Handled t) (hle : now ≤ t) {f : Failure} (hf : f.ts = t)
    {bursts' : Bursts}
    (hwindow : ∀ ip, ∃ cutoff ≤ t - 120, (Dict.get bursts'.failedWindow ip).getD [] =
      ((sinceBurst ip (failures ++ [f])).filter fun g => cutoff ≤ g.ts).map fun g => .fin g.ts)
    (hemitted : ∀ ip, Dict.get bursts'.emittedAt ip = (lastBurst ip (failures ++ [f])).map .fin) :
    Tracks bursts' (failures ++ [f]) t where
  times := by
    intro g hg
    rcases List.mem_append.1 hg with hg | hg
    · exact ⟨(h.times g hg).1, (h.times g hg).2.trans hle⟩
    · rw [List.mem_singleton.1 hg, hf]
      exact ⟨ht, le_rfl⟩
  order := by
    refine List.pairwise_append.2 ⟨h.order, List.pairwise_singleton _ _, ?_⟩
    intro g hg f' hf'
    rw [List.mem_singleton.1 hf', hf]
    exact (h.times g hg).2.trans hle
  window := hwindow
  emitted := hemitted

/-- **One failure.** It is reported if it is due, and the times kept stay
those that matter. -/
theorem Tracks.step (h : Tracks bursts failures now) (ht : Handled t) (hle : now ≤ t) (ip : String) :
    (bursts.failed ip (.fin t)).2 = due failures ip t ∧
      Tracks (bursts.failed ip (.fin t)).1 (failures ++ [⟨ip, t, due failures ip t⟩]) t := by
  rw [h.failed_eq ht hle ip]
  cases hdue : due failures ip t with
  | some count =>
    refine ⟨rfl, h.add ht hle rfl (fun ip' => ?_) fun ip' => ?_⟩
    · rw [sinceBurst_concat, Dict.get_set]
      dsimp only
      split
      · exact ⟨t - 120, le_rfl, by simp⟩
      · exact h.window_later hle ip'
    · rw [lastBurst_concat, Dict.get_set]
      dsimp only
      by_cases hip : ip = ip'
      · rw [if_pos hip, if_pos ⟨hip, rfl⟩]
        rfl
      · rw [if_neg hip, if_neg fun hboth => hip hboth.1]
        exact h.emitted ip'
  | none =>
    refine ⟨rfl, h.add ht hle rfl (fun ip' => ?_) fun ip' => ?_⟩
    · rw [sinceBurst_concat, Dict.get_set]
      dsimp only
      split
      · next hip =>
        refine ⟨t - 120, le_rfl, ?_⟩
        subst hip
        rw [Option.getD_some, Option.isNone_none, if_pos rfl, List.filter_append, List.map_append, keptTimes,
          inWindow]
        simp
      · exact h.window_later hle ip'
    · rw [lastBurst_concat]
      dsimp only
      rw [if_neg fun hboth => by simp at hboth]
      exact h.emitted ip'

theorem Tracks.later (h : Tracks bursts failures now) (hle : now ≤ t) : Tracks bursts failures t where
  times f hf := ⟨(h.times f hf).1, (h.times f hf).2.trans hle⟩
  order := h.order
  window ip := h.window_later hle ip
  emitted := h.emitted

theorem tracks_start (now : ℚ) : Tracks {} [] now where
  times _ hf := absurd hf List.not_mem_nil
  order := List.Pairwise.nil
  window _ := ⟨now - 120, le_rfl, rfl⟩
  emitted _ := rfl

/-! ## Reports -/

/-- What is to be said of a failure after those before it. -/
structure Correct (before : List Failure) (f : Failure) : Prop where
  spaced : f.reported.isSome → ∀ g ∈ before, g.ip = f.ip → g.reported.isSome → g.ts + 120 ≤ f.ts
  counted : ∀ count, f.reported = some count →
    5 ≤ count ∧ count = (inWindow f.ts (sinceBurst f.ip before ++ [f])).length
  found : 5 ≤ ((before ++ [f]).filter fun g => g.ip = f.ip ∧ f.ts - 120 < g.ts).length →
    (∀ g ∈ before, g.ip = f.ip → g.reported.isSome → g.ts ≤ f.ts - 120) → f.reported.isSome

/-- The last burst comes after the others. -/
theorem le_lastBurst {failures : List Failure} (horder : failures.Pairwise fun f g => f.ts ≤ g.ts) {g : Failure}
    (hg : g ∈ failures) (hreported : g.reported.isSome) :
    ∃ last, lastBurst g.ip failures = some last ∧ g.ts ≤ last := by
  induction failures using List.reverseRecOn with
  | nil => exact absurd hg List.not_mem_nil
  | append_singleton failures f ih =>
    obtain ⟨hbefore, -, hlast⟩ := List.pairwise_append.1 horder
    rw [lastBurst_concat]
    split
    · refine ⟨f.ts, rfl, ?_⟩
      rcases List.mem_append.1 hg with hg | hg
      · exact hlast g hg f (List.mem_singleton.2 rfl)
      · rw [List.mem_singleton.1 hg]
    · next hnot =>
      rcases List.mem_append.1 hg with hg | hg
      · exact ih hbefore hg
      · rw [List.mem_singleton.1 hg] at hreported hnot
        exact absurd ⟨rfl, hreported⟩ hnot

/-- Where no burst is recent, the recent failures all came after the last. -/
theorem recent_eq {failures : List Failure} {ip : String} {limit : ℚ}
    (horder : failures.Pairwise fun f g => f.ts ≤ g.ts)
    (hold : ∀ g ∈ failures, g.ip = ip → g.reported.isSome → g.ts ≤ limit) :
    (failures.filter fun g => g.ip = ip ∧ limit < g.ts) = (sinceBurst ip failures).filter fun g => limit < g.ts := by
  induction failures using List.reverseRecOn with
  | nil => rfl
  | append_singleton failures f ih =>
    obtain ⟨hbefore, -, hlast⟩ := List.pairwise_append.1 horder
    have hrest := ih hbefore fun g hg => hold g (List.mem_append_left _ hg)
    rw [sinceBurst_concat, List.filter_append, hrest]
    by_cases hip : f.ip = ip
    · rw [if_pos hip]
      cases hreported : f.reported with
      | none =>
        rw [Option.isNone_none, if_pos rfl, List.filter_append]
        refine congrArg _ (List.filter_congr fun g hg => ?_)
        rw [List.mem_singleton.1 hg]
        simp [hip]
      | some count =>
        have hlimit : f.ts ≤ limit := hold f (by simp) hip (by rw [hreported]; rfl)
        have hnone : ∀ g ∈ sinceBurst ip failures, ¬ limit < g.ts := by
          intro g hg
          have := hlast g (sinceBurst_subset hg) f (List.mem_singleton.2 rfl)
          linarith
        rw [List.filter_eq_nil_iff.2 fun g hg => by simpa using hnone g hg]
        simp [hlimit]
    · rw [if_neg hip]
      simp [hip]

/-- A failure that is due comes 120 s after the earlier bursts. -/
theorem due_spaced {failures : List Failure} {ip : String} (horder : failures.Pairwise fun f g => f.ts ≤ g.ts)
    (hdue : (due failures ip t).isSome) {g : Failure} (hg : g ∈ failures) (hip : g.ip = ip)
    (hreported : g.reported.isSome) : g.ts + 120 ≤ t := by
  obtain ⟨count, hcount⟩ := Option.isSome_iff_exists.1 hdue
  have hgap := (due_eq_some_iff.1 hcount).2.2
  obtain ⟨last, hlast, hgle⟩ := le_lastBurst horder hg hreported
  rw [hip] at hlast
  rw [hlast, Option.getD_some] at hgap
  linarith

theorem gap_of_old {failures : List Failure} {ip : String} (ht : Handled t)
    (hold : ∀ g ∈ failures, g.ip = ip → g.reported.isSome → g.ts ≤ t - 120) :
    120 ≤ t - (lastBurst ip failures).getD 0 := by
  cases hlast : lastBurst ip failures with
  | none =>
    have := ht.2.1
    simpa using this
  | some last =>
    obtain ⟨g, hg, hip, hreported, rfl⟩ := lastBurst_mem hlast
    have := hold g hg hip hreported
    rw [Option.getD_some]
    linarith

/-- Where no burst is recent, the recent failures are among those counted. -/
theorem recent_le {failures : List Failure} {ip : String} (horder : failures.Pairwise fun f g => f.ts ≤ g.ts)
    (hold : ∀ g ∈ failures, g.ip = ip → g.reported.isSome → g.ts ≤ t - 120) (f : Failure) :
    ((failures ++ [f]).filter fun g => g.ip = ip ∧ t - 120 < g.ts).length ≤
      (inWindow t (sinceBurst ip failures)).length + 1 := by
  have hlate : ((sinceBurst ip failures).filter fun g => t - 120 < g.ts).length ≤
      (inWindow t (sinceBurst ip failures)).length :=
    (List.monotone_filter_right _ fun g hg => by
      have := of_decide_eq_true hg
      exact decide_eq_true this.le).length_le
  have hone : ([f].filter fun g => g.ip = ip ∧ t - 120 < g.ts).length ≤ 1 := List.length_filter_le _ _
  rw [List.filter_append, recent_eq horder hold, List.length_append]
  omega

theorem Tracks.correct (h : Tracks bursts failures now) (ht : Handled t) (ip : String) :
    Correct failures ⟨ip, t, due failures ip t⟩ where
  spaced hdue g hg hip hreported := due_spaced h.order hdue hg hip hreported
  counted count hdue := by
    obtain ⟨hfive, hcount, -⟩ := due_eq_some_iff.1 hdue
    refine ⟨hfive, ?_⟩
    rw [hcount]
    simp [inWindow]
  found hmany hold := by
    have hfive := hmany.trans (recent_le h.order hold _)
    exact Option.isSome_iff_exists.2 ⟨_, due_eq_some_iff.2 ⟨hfive, rfl, gap_of_old ht hold⟩⟩

/-! ## Calls -/

/-- A call of `_parse_other`. -/
structure Call where
  line : List Char
  lineOffset : Nat
  ts : ℚ

structure Watch where
  bursts : Bursts := {}
  failures : List Failure := []

/-- The number a payload tells. -/
def failedCount : Option Ingest.Payload → Option Nat
  | some (.failedLoginBurst burst) => some burst.failedCount
  | _ => none

variable (host : Ingest.Host) (config : IngestConfig)

/-- A call that raises leaves everything as it is. -/
def Watch.call (s : Watch) (c : Call) : Watch :=
  match parseOther host config s.bursts c.line c.lineOffset (.fin c.ts) with
  | .error _ => s
  | .ok (bursts, payload) =>
    match (sshFailed host).search c.line with
    | some groups =>
      { bursts, failures := s.failures ++ [⟨groups.named "source_ip", c.ts, failedCount payload⟩] }
    | none => { s with bursts }

/-- What a call does: nothing to the bursts, or one failure. -/
theorem call_cases (s : Watch) (c : Call) :
    s.call host config c = s ∨
    ∃ ip text, host.fromTimestamp (.fin c.ts) = some text ∧
      s.call host config c = { bursts := (s.bursts.failed ip (.fin c.ts)).1
                               failures := s.failures ++ [⟨ip, c.ts, (s.bursts.failed ip (.fin c.ts)).2⟩] } := by
  unfold Watch.call parseOther
  cases htime : host.fromTimestamp (.fin c.ts) with
  | none => exact .inl rfl
  | some text =>
    dsimp only
    cases hfailed : (sshFailed host).search c.line with
    | some groups =>
      refine .inr ⟨groups.named "source_ip", text, rfl, ?_⟩
      dsimp only
      cases hcount : s.bursts.failed (groups.named "source_ip") (.fin c.ts) with
      | mk bursts count => cases count <;> rfl
    | none =>
      dsimp only
      refine .inl ?_
      split
      · next hparse =>
        split at hparse
        · split at hparse <;> cases hparse
        · cases hparse
      · next hparse =>
        split at hparse
        · split at hparse
          · obtain ⟨rfl, -⟩ := Prod.mk.inj (Except.ok.inj hparse)
            rfl
          · obtain ⟨rfl, -⟩ := Prod.mk.inj (Except.ok.inj hparse)
            rfl
        · obtain ⟨rfl, -⟩ := Prod.mk.inj (Except.ok.inj hparse)
          rfl

variable {host config}

/-- **Bursts are reported once per window and never missed.** -/
theorem bursts_reported (hrange : ∀ t text, host.fromTimestamp (.fin t) = some text → t < 2 ^ 38)
    {calls : List Call} (hdouble : ∀ c ∈ calls, Flt.IsDouble c.ts) (hlow : ∀ c ∈ calls, 120 ≤ c.ts)
    (horder : calls.Pairwise fun c d => c.ts ≤ d.ts) {before after : List Failure} {f : Failure}
    (hf : (run (Watch.call host config) {} calls).failures = before ++ f :: after) : Correct before f := by
  suffices hrun : ∀ now, (∀ c ∈ calls, c.ts ≤ now) →
      Tracks (run (Watch.call host config) {} calls).bursts (run (Watch.call host config) {} calls).failures now ∧
      ∀ before f after, (run (Watch.call host config) {} calls).failures = before ++ f :: after → Correct before f by
    obtain ⟨now, hnow⟩ : ∃ now : ℚ, ∀ c ∈ calls, c.ts ≤ now := by
      obtain ⟨now, hnow⟩ := (calls.map Call.ts).toFinset.exists_le
      exact ⟨now, fun c hc => hnow c.ts (List.mem_toFinset.2 (List.mem_map_of_mem hc))⟩
    exact (hrun now hnow).2 before f after hf
  clear hf
  induction calls using List.reverseRecOn with
  | nil => exact fun now _ => ⟨tracks_start now, fun before f after h => by cases before <;> cases h⟩
  | append_singleton calls c ih =>
    intro now hnow
    have hc : c ∈ calls ++ [c] := List.mem_append_right _ (List.mem_singleton.2 rfl)
    obtain ⟨hbefore, -, hlast⟩ := List.pairwise_append.1 horder
    obtain ⟨htracks, hcorrect⟩ := ih (fun d hd => hdouble d (List.mem_append_left _ hd))
      (fun d hd => hlow d (List.mem_append_left _ hd)) hbefore c.ts fun d hd => hlast d hd c (List.mem_singleton.2 rfl)
    rw [run_concat]
    rcases call_cases host config (run (Watch.call host config) {} calls) c with
      hsame | ⟨ip, text, htime, hcall⟩
    · rw [hsame]
      exact ⟨htracks.later (hnow c hc), hcorrect⟩
    · have hhandled : Handled c.ts := ⟨hdouble c hc, hlow c hc, hrange c.ts text htime⟩
      obtain ⟨hdue, hstep⟩ := htracks.step hhandled le_rfl ip
      rw [hcall, hdue]
      refine ⟨hstep.later (hnow c hc), fun before f after hsplit => ?_⟩
      rcases split_concat hsplit with ⟨-, rfl, rfl⟩ | ⟨after', rfl, hold⟩
      · exact htracks.correct hhandled ip
      · exact hcorrect before f after' hold

/-! ## Six failures at once -/

/-- A host that reads the line below, at one moment. -/
def dialHost : Ingest.Host where
  digit c := if '0' ≤ c ∧ c ≤ '9' then some (c.toNat - 48) else none
  wordChar c := c.isAlphanum || c = '_'
  getpwnam _ := none
  getgrnam _ := none
  fromIsoFormat _ := none
  fromTimestamp t := if t = .fin 1000 then some "1970-01-01T00:16:40" else none
  utcFromTimestamp _ := none

def failedLine : List Char := "h sshd[1]: Failed password for x from 9.9.9.9 port 22 ssh2".toList

def sixFailures : List Call := (List.range 6).map fun i => ⟨failedLine, i, 1000⟩

/-- The fifth failure is reported. -/
theorem bursts_reported_fifth :
    ∃ before f after, (run (Watch.call dialHost { nodeId := "n", hostId := "n", authLogPath := "auth.log" }) {}
        sixFailures).failures = before ++ f :: after ∧ f.reported = some 5 ∧ Correct before f := by
  have hone : ∀ c ∈ sixFailures, c.ts = 1000 := by decide +kernel
  have hrange : ∀ t text, dialHost.fromTimestamp (.fin t) = some text → t < 2 ^ 38 := by
    intro t text h
    simp only [dialHost] at h
    split at h
    · next ht =>
      rw [Flt.fin.inj ht]
      norm_num
    · cases h
  have hdouble : Flt.IsDouble 1000 := by decide +kernel
  have hfailures : (run (Watch.call dialHost { nodeId := "n", hostId := "n", authLogPath := "auth.log" }) {}
      sixFailures).failures = List.replicate 4 ⟨"9.9.9.9", 1000, none⟩ ++
        ⟨"9.9.9.9", 1000, some 5⟩ :: [⟨"9.9.9.9", 1000, none⟩] := by decide +kernel
  refine ⟨_, _, _, hfailures, rfl, bursts_reported hrange ?_ ?_ ?_ hfailures⟩
  · intro c hc
    rw [hone c hc]
    exact hdouble
  · intro c hc
    rw [hone c hc]
    norm_num
  · exact List.pairwise_of_forall_mem_list fun c hc d hd => by rw [hone c hc, hone d hd]

end Mdrj.L4.BurstReports
