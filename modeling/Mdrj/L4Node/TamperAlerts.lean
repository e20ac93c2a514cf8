import Mdrj.L1Encoding.Rounding
import Mdrj.L4Node.Lifecycle
import Mdrj.L4Node.Tamper

/-!
# Tamper alerts

A pass of the tamper loop picks the newest confirmed checkpoint, verifies it
in a worker thread, and for a root that does not match emits an alert of class
A, unless the journal has an alert about the round from the last hour. The
journal is what tells: a restart in between, or the alert of another node,
counts as well, and clearing the events forgets the alerts. Anything else may
happen between the parts of a pass, one call at a time.

Results:
* `alertedSince_eq`: the scan is decided by the first event that is a recent
  alert about the round or an alert whose round cannot be read.
* `tamper_alerts_hourly`: in every run in which retention keeps class A,
  nobody edits the alerts and the clock does not go back within a pass, the
  alerts about one round since the last clear are more than an hour apart and
  stay in the journal; and a pass that has found evidence ends with a recent
  alert in the journal, unless the emission fails or some alert in the journal
  cannot be read. One such event, which any peer can send, stops all alerts.
-/
namespace Mdrj.L4
open Mdrj.Core Mdrj.L1 Mdrj.L3

/-! ## The scan -/

def tamperKind : String := "mdrj_tamper_detected"

/-- What the scan makes of a payload. -/
inductive AlertReading where
  | other
  | alert (round : Int)
  | unreadable
  deriving DecidableEq

/-- `x >= y` of Python. -/
def atLeast (x y : Flt) : Bool := !Flt.lt x y && decide (x ≠ .nan) && decide (y ≠ .nan)

/-- Without an alert at all, or with too old a one, `false`. -/
inductive PassEnd where
  | raised
  | recent
  | emitted (stored : Bool)
  deriving DecidableEq

section Scan
variable (readInt : String → Option Int)   -- `int` of a text; `none`: it raises

/-- `int(payload.get("round_received", -1))`; `none` when `int` raises. -/
def asRound : Option Json → Option Int
  | none => some (-1)
  | some (.int k) => some k
  | some (.bool b) => some (if b then 1 else 0)
  | some (.float x) => x.trunc
  | some (.str text) => readInt text
  | some _ => none

/-- A payload that is no object, and not empty, has no `get`. -/
def readAlert : Json → AlertReading
  | .obj fields =>
    match Dict.get fields "event_kind" with
    | some (.str kind) =>
      if kind = tamperKind then (asRound readInt (Dict.get fields "round_received")).elim .unreadable .alert
      else .other
    | _ => .other
  | payload => if payload.truthy then .unreadable else .other

/-- `none` when the scan raises.
mirrors mdrj/node.py:1606-1616 -/
def alertedSince (round : Int) (cutoff : Flt) : List Event → Option Bool
  | [] => some false
  | e :: rest =>
    match readAlert readInt e.payload with
    | .other => alertedSince round cutoff rest
    | .unreadable => none
    | .alert r =>
      if r ≠ round then alertedSince round cutoff rest
      else if atLeast e.tsLocal cutoff then some true
      else alertedSince round cutoff rest

/-- The event is an alert about the round, from the cutoff or later. -/
def RecentAlert (round : Int) (cutoff : Flt) (e : Event) : Prop :=
  readAlert readInt e.payload = .alert round ∧ atLeast e.tsLocal cutoff = true

instance (round : Int) (cutoff : Flt) (e : Event) : Decidable (RecentAlert readInt round cutoff e) :=
  inferInstanceAs (Decidable (_ ∧ _))

/-- The event ends the scan. -/
def EndsScan (round : Int) (cutoff : Flt) (e : Event) : Prop :=
  readAlert readInt e.payload = .unreadable ∨ RecentAlert readInt round cutoff e

instance (round : Int) (cutoff : Flt) (e : Event) : Decidable (EndsScan readInt round cutoff e) :=
  inferInstanceAs (Decidable (_ ∨ _))

theorem alertedSince_eq (round : Int) (cutoff : Flt) (events : List Event) :
    alertedSince readInt round cutoff events =
      match events.find? fun e => decide (EndsScan readInt round cutoff e) with
      | none => some false
      | some e => if readAlert readInt e.payload = .unreadable then none else some true := by
  induction events with
  | nil => rfl
  | cons e rest ih =>
    unfold alertedSince
    rw [List.find?_cons]
    by_cases hends : EndsScan readInt round cutoff e
    · rw [decide_eq_true hends]
      rcases hends with hread | ⟨hread, hts⟩
      · simp [hread]
      · simp [hread, hts]
    · rw [decide_eq_false hends, ← ih]
      split
      · rfl
      · rename_i hread
        exact absurd (.inl hread) hends
      · rename_i r hread
        by_cases hr : r = round
        · subst hr
          have hts : ¬ atLeast e.tsLocal cutoff = true := fun hts => hends (.inr ⟨hread, hts⟩)
          rw [if_neg (not_not.2 rfl), if_neg hts]
        · rw [if_pos hr]

theorem alertedSince_true {round : Int} {cutoff : Flt} {events : List Event}
    (h : alertedSince readInt round cutoff events = some true) : ∃ e ∈ events, RecentAlert readInt round cutoff e := by
  rw [alertedSince_eq] at h
  cases hfind : events.find? fun e => decide (EndsScan readInt round cutoff e) with
  | none =>
    rw [hfind] at h
    cases h
  | some e =>
    rw [hfind] at h
    dsimp only at h
    split at h
    · cases h
    · rename_i hread
      have hends := List.find?_some hfind
      simp only [decide_eq_true_eq] at hends
      exact ⟨e, List.mem_of_find?_eq_some hfind, hends.resolve_left hread⟩

theorem alertedSince_false {round : Int} {cutoff : Flt} {events : List Event}
    (h : alertedSince readInt round cutoff events = some false) : ∀ e ∈ events, ¬ RecentAlert readInt round cutoff e := by
  rw [alertedSince_eq] at h
  cases hfind : events.find? fun e => decide (EndsScan readInt round cutoff e) with
  | none =>
    intro e he hrecent
    have hends := List.find?_eq_none.1 hfind e he
    exact hends (decide_eq_true (.inr hrecent))
  | some e =>
    rw [hfind] at h
    dsimp only at h
    split at h <;> cases h

theorem alertedSince_none {round : Int} {cutoff : Flt} {events : List Event}
    (h : alertedSince readInt round cutoff events = none) :
    ∃ e ∈ events, readAlert readInt e.payload = .unreadable := by
  rw [alertedSince_eq] at h
  cases hfind : events.find? fun e => decide (EndsScan readInt round cutoff e) with
  | none =>
    rw [hfind] at h
    cases h
  | some e =>
    rw [hfind] at h
    dsimp only at h
    split at h
    · rename_i hread
      exact ⟨e, List.mem_of_find?_eq_some hfind, hread⟩
    · cases h

end Scan

/-! ## A pass -/

/-- Where the pass is: between its parts, anything else may happen. -/
inductive VerifyPass where
  | idle
  | chosen (round : Int)
  | suspects (round : Int) (report : Node.CheckpointVerificationReport)

/-- mirrors mdrj/node.py:1592-1602 -/
def alertPayload (n : Node) (host : Host) (round : Int) (report : Node.CheckpointVerificationReport) (made : ℚ) : Json :=
  .obj [("event_kind", .str tamperKind), ("node_id", .str n.config.nodeId),
    ("host_id", .str (n.hostName host)), ("round_received", .int round),
    ("local_merkle_root", .str report.localMerkleRoot),
    ("confirmed_merkle_root", .str report.confirmedMerkleRoot), ("detected_at", .float (.fin made))]

def alertCutoff (seen : ℚ) : Flt := (Flt.fin seen).sub (.fin 3600)

/-- The part of a pass that does not wait. `seen` is the clock reading of the
scan.
mirrors mdrj/node.py:1587-1604 -/
def alertOnce (readInt : String → Option Int) (n : Node) (host : Host) (round : Int)
    (report : Node.CheckpointVerificationReport) (seen : ℚ) (m : Moment) : Node × PassEnd :=
  match alertedSince readInt round (alertCutoff seen) n.storage.allEvents with
  | none => (n, .raised)
  | some true => (n, .recent)
  | some false =>
    match n.emitEvent .A (alertPayload n host round report m.made) (.fin m.ts) (.fin m.now) m.pick with
    | ⟨n, .ok stored⟩ => (n, .emitted stored)
    | ⟨n, .error _⟩ => (n, .raised)

structure TamperWatch where
  node : Node
  host : Host
  pass : VerifyPass := .idle
  /-- ghost: the alerts that passes have stored since the last clear, with their times -/
  alerts : List (Int × ℚ) := []

inductive WatchAct where
  | choose
  | verify
  | alert (seen : ℚ) (m : Moment)
  | emit (cls : EventClass) (payload : Json) (ts now : Flt) (pick : Nat)
  | ingest (envelopes : List (Envelope × Flt))
  | retain (now : Flt)
  | checkpoint (table : Dict Int CheckpointRow)
  | clear (genesisTs now : Flt)
  | edit (x : String) (edit : Edit)
  | restart (genesisTs boot : Flt)

namespace TamperWatch

/-- mirrors mdrj/node.py:1577-1580 -/
def choose (s : TamperWatch) : TamperWatch :=
  match s.pass, s.node.storage.latestConfirmedCheckpoint with
  | .idle, some (round, _) => { s with pass := .chosen round }
  | _, _ => s

/-- Without evidence, or when verification raises, the pass is over.
mirrors mdrj/node.py:1581-1586 -/
def verify (s : TamperWatch) : TamperWatch :=
  match s.pass with
  | .chosen round =>
    match s.node.verifyCheckpoint round with
    | .ok report => { s with pass := if report.hasTamperEvidence then .suspects round report else .idle }
    | .error _ => { s with pass := .idle }
  | _ => s

/-- mirrors mdrj/node.py:1587-1604 -/
def alert (readInt : String → Option Int) (s : TamperWatch) (seen : ℚ) (m : Moment) : TamperWatch :=
  match s.pass with
  | .suspects round report =>
    let (n, ending) := alertOnce readInt s.node s.host round report seen m
    { s with
      node := n
      pass := .idle
      alerts := if ending = .emitted true then s.alerts ++ [(round, m.ts)] else s.alerts }
  | _ => s

/-- `checkpoint` is what the other operations make of the checkpoints; `edit`
changes a row behind the node's back. A restart ends the pass; a clear leaves
it where it is. -/
def step (readInt : String → Option Int) (s : TamperWatch) : WatchAct → TamperWatch
  | .choose => s.choose
  | .verify => s.verify
  | .alert seen m => s.alert readInt seen m
  | .emit cls payload ts now pick => { s with node := (s.node.emitEvent cls payload ts now pick).node }
  | .ingest envelopes => { s with node := (s.node.ingestEnvelopes envelopes).node }
  | .retain now => { s with node := (s.node.runRetentionOnce now).node }
  | .checkpoint table => { s with node := s.node.withCheckpoints table }
  | .clear genesisTs now =>
    { s with
      node := (s.node.clearEventsLocal (s.node.selfIdentity s.host) genesisTs now).node
      alerts := [] }
  | .edit x edit => { s with node := s.node.edited x edit }
  | .restart genesisTs boot =>
    { s with node := (s.node.restart (s.node.selfIdentity s.host) genesisTs boot).node, pass := .idle }

/-- Retention keeps class A, the alerts are not edited, and the clock does not
go back from the scan of a pass to its emission. -/
def Regular (readInt : String → Option Int) (s : TamperWatch) : WatchAct → Prop
  | .alert seen m => seen ≤ m.ts ∧ Flt.IsDouble m.ts
  | .retain _ => s.node.config.retention.keepClassA = true
  | .edit x _ => ∀ row ∈ s.node.storage.events, row.event.id = x →
    ∀ round, readAlert readInt row.event.payload ≠ .alert round
  | _ => True

end TamperWatch

/-! ## The alerts stay -/

/-- What the scan reads of a row, with its class. -/
def alertEntry (row : EventRow) : EventClass × Json × Flt := (row.event.cls, row.event.payload, row.event.tsLocal)

section Kept
variable {readInt : String → Option Int} {n : Node}

/-- The row is this alert. -/
def IsAlert (readInt : String → Option Int) (a : Int × ℚ) (entry : EventClass × Json × Flt) : Prop :=
  entry.1 = .A ∧ readAlert readInt entry.2.1 = .alert a.1 ∧ entry.2.2 = .fin a.2

def HasAlert (readInt : String → Option Int) (n : Node) (a : Int × ℚ) : Prop :=
  ∃ entry ∈ n.storage.events.map alertEntry, IsAlert readInt a entry

theorem unfilled_alertEntry : DAGStorage.Unfilled alertEntry := fun _ _ _ _ => rfl

/-- Every entry stays. -/
def EntriesStay (n n' : Node) : Prop :=
  n.storage.events.map alertEntry ⊆ n'.storage.events.map alertEntry

theorem EntriesStay.hasAlert {n' : Node} (h : EntriesStay n n') {a : Int × ℚ} (ha : HasAlert readInt n a) :
    HasAlert readInt n' a := by
  obtain ⟨entry, hentry, halert⟩ := ha
  exact ⟨entry, h hentry, halert⟩

theorem recompute_stay (n : Node) : EntriesStay n n.recomputeConsensus.node := by
  obtain ⟨states, hnode⟩ := n.recomputeConsensus_node
  unfold EntriesStay
  rw [hnode, DAGStorage.replaceConsensusState_map (fun _ _ => rfl) n.storage states]
  exact List.Subset.refl _

theorem persist_stay (n : Node) (envelope : Envelope) (now : Flt) :
    EntriesStay n (n.persistEnvelope envelope now).node := by
  unfold Node.persistEnvelope
  split
  · exact List.Subset.refl _
  · rename_i s stored hs
    rcases DAGStorage.storeEnvelope_map unfilled_alertEntry hs with ⟨-, -, hmap⟩ | ⟨-, -, hmap⟩
    · exact fun entry hentry => hmap ▸ hentry
    · unfold EntriesStay
      rw [hmap]
      exact List.subset_append_left _ _

theorem ingest_stay (n : Node) (envelopes : List (Envelope × Flt)) :
    EntriesStay n (n.ingestEnvelopes envelopes).node :=
  Node.ingestEnvelopes_ind (P := EntriesStay n) (Q := fun _ => True)
    (fun n' p _ h => List.Subset.trans h (persist_stay n' p.1 p.2))
    (fun n' h => List.Subset.trans h (recompute_stay n')) (fun _ _ => trivial) (List.Subset.refl _)

theorem emit_stay (n : Node) (cls : EventClass) (payload : Json) (ts now : Flt) (pick : Nat) :
    EntriesStay n (n.emitEvent cls payload ts now pick).node :=
  Node.emitEvent_of_persist (P := EntriesStay n) (fun n' h => List.Subset.trans h (recompute_stay n'))
    (fun _ h => h) (persist_stay { n with anchors := n.anchorIds } _ _)

theorem restart_stay (identity : List (String × Json)) (ts now : Flt) :
    EntriesStay n (n.restart identity ts now).node := by
  unfold Node.restart Node.bootstrapGenesis
  dsimp only
  split
  · split
    · exact List.Subset.refl _
    · rename_i s stored hs
      rcases DAGStorage.storeEnvelope_map unfilled_alertEntry hs with ⟨-, -, hmap⟩ | ⟨-, -, hmap⟩
      · exact fun entry hentry => hmap ▸ hentry
      · unfold EntriesStay
        rw [hmap]
        exact List.subset_append_left _ _
  · exact List.Subset.refl _

theorem retain_hasAlert (hkeep : n.config.retention.keepClassA = true) (now : Flt) {a : Int × ℚ}
    (h : HasAlert readInt n a) : HasAlert readInt (n.runRetentionOnce now).node a := by
  obtain ⟨entry, hentry, halert⟩ := h
  obtain ⟨row, hrow, rfl⟩ := List.mem_map.1 hentry
  refine ⟨alertEntry row, List.mem_map_of_mem ?_, halert⟩
  rw [runRetentionOnce_events, List.mem_filter]
  refine ⟨hrow, ?_⟩
  have hcls : row.event.cls = .A := halert.1
  unfold Node.prunes
  split
  · rw [prunable_eq, hkeep, hcls]
    simp
  · rfl

theorem edit_hasAlert {x : String} (edit : Edit) {a : Int × ℚ}
    (hx : ∀ row ∈ n.storage.events, row.event.id = x → ∀ round, readAlert readInt row.event.payload ≠ .alert round)
    (h : HasAlert readInt n a) : HasAlert readInt (n.edited x edit) a := by
  obtain ⟨entry, hentry, halert⟩ := h
  obtain ⟨row, hrow, rfl⟩ := List.mem_map.1 hentry
  have hid : row.event.id ≠ x := fun hid => hx row hrow hid a.1 halert.2.1
  refine ⟨alertEntry (edit.row x row), List.mem_map_of_mem (List.mem_map_of_mem hrow), ?_⟩
  unfold Edit.row
  rw [if_neg hid]
  exact halert

/-- An emission that returns `true` has stored its event. -/
theorem emit_entry {cls : EventClass} {payload : Json} {ts now : Flt} {pick : Nat}
    (h : (n.emitEvent cls payload ts now pick).result = .ok true) :
    (cls, payload, ts) ∈ (n.emitEvent cls payload ts now pick).node.storage.events.map alertEntry := by
  unfold Node.emitEvent at h ⊢
  dsimp only at h ⊢
  cases hp : ({ n with anchors := n.anchorIds } : Node).persistEnvelope
      ⟨n.nextEvent cls payload ts pick, [⟨some n.config.nodeId, some ts⟩]⟩ now with
  | mk n' result =>
    rw [hp] at h
    cases result with
    | error err => cases h
    | ok stored =>
      dsimp only at h ⊢
      have hstay := recompute_stay n'
      cases hrec : n'.recomputeConsensus with
      | mk n'' result' =>
        rw [hrec] at h hstay
        cases result' with
        | error err => cases h
        | ok _ =>
          obtain rfl : stored = true := Except.ok.inj h
          refine hstay ?_
          unfold Node.persistEnvelope at hp
          split at hp
          · cases hp
          · rename_i s stored' hs
            obtain ⟨rfl, hresult⟩ := Call.mk.inj hp
            obtain rfl := Except.ok.inj hresult
            rcases DAGStorage.storeEnvelope_map unfilled_alertEntry hs with ⟨-, hfalse, -⟩ | ⟨-, -, hmap⟩
            · cases hfalse
            · dsimp only
              rw [hmap]
              exact List.mem_append_right _ List.mem_cons_self

end Kept

/-! ## The end of a pass -/

section Ending
variable {readInt : String → Option Int} {n n' : Node} {host : Host} {round : Int}
  {report : Node.CheckpointVerificationReport} {seen : ℚ} {m : Moment} {ending : PassEnd}

theorem readAlert_alertPayload (n : Node) (host : Host) (round : Int) (report : Node.CheckpointVerificationReport)
    (made : ℚ) : readAlert readInt (alertPayload n host round report made) = .alert round := by
  rfl

theorem HasAlert.recent {ts : ℚ} {cutoff : Flt} (h : HasAlert readInt n (round, ts))
    (hts : atLeast (.fin ts) cutoff = true) : ∃ e ∈ n.storage.allEvents, RecentAlert readInt round cutoff e := by
  obtain ⟨entry, hentry, -, hread, hat⟩ := h
  obtain ⟨row, hrow, rfl⟩ := List.mem_map.1 hentry
  refine ⟨DAGStorage.loadEvent row, List.mem_map_of_mem ((List.mem_insertionSort _).2 hrow), hread, ?_⟩
  change atLeast row.event.tsLocal cutoff = true
  have hrowts : row.event.tsLocal = .fin ts := hat
  rw [hrowts]
  exact hts

theorem ofRat_ne_nan (q : ℚ) : Flt.ofRat q ≠ .nan := by
  unfold Flt.ofRat
  dsimp only
  split
  · simp
  · split
    · split <;> simp
    · simp

theorem alertCutoff_eq (seen : ℚ) : alertCutoff seen = Flt.ofRat (seen - 3600) := by
  unfold alertCutoff Flt.sub Flt.neg Flt.add
  rw [sub_eq_add_neg]

/-- What is not before the cutoff is recent. -/
theorem atLeast_cutoff {ts : ℚ} (hts : Flt.IsDouble ts) (hle : seen - 3600 ≤ ts) :
    atLeast (.fin ts) (alertCutoff seen) = true := by
  have hmono := Flt.ofRat_mono hle
  rw [show Flt.ofRat ts = .fin ts from hts] at hmono
  have hne := ofRat_ne_nan (seen - 3600)
  unfold atLeast
  rw [alertCutoff_eq]
  simp [hmono, hne]

/-- Evidence ends in a recent alert, unless the scan or the emission fails. -/
theorem alertOnce_recent (hseen : seen ≤ m.ts) (hdouble : Flt.IsDouble m.ts)
    (h : alertOnce readInt n host round report seen m = (n', ending)) :
    (∃ e ∈ n.storage.allEvents, readAlert readInt e.payload = .unreadable) ∨
      (alertedSince readInt round (alertCutoff seen) n.storage.allEvents = some false ∧ (n.emitEvent .A
        (alertPayload n host round report m.made) (.fin m.ts) (.fin m.now) m.pick).result ≠ .ok true) ∨
      ∃ e ∈ n'.storage.allEvents, RecentAlert readInt round (alertCutoff seen) e := by
  unfold alertOnce at h
  cases hscan : alertedSince readInt round (alertCutoff seen) n.storage.allEvents with
  | none => exact .inl (alertedSince_none readInt hscan)
  | some found =>
    rw [hscan] at h
    cases found with
    | true =>
      obtain ⟨rfl, -⟩ := Prod.mk.inj h
      exact .inr (.inr (alertedSince_true readInt hscan))
    | false =>
      dsimp only at h
      by_cases hresult : (n.emitEvent .A (alertPayload n host round report m.made) (.fin m.ts) (.fin m.now)
          m.pick).result = .ok true
      · refine .inr (.inr ?_)
        have hentry := emit_entry hresult
        split at h
        · rename_i n'' stored hemit
          obtain ⟨rfl, -⟩ := Prod.mk.inj h
          rw [hemit] at hentry
          have halert : HasAlert readInt n'' (round, m.ts) :=
            ⟨_, hentry, rfl, readAlert_alertPayload n host round report m.made, rfl⟩
          exact halert.recent (atLeast_cutoff hdouble (by linarith))
        · rename_i n'' err hemit
          rw [hemit] at hresult
          cases hresult
      · exact .inr (.inl ⟨rfl, hresult⟩)

/-- A pass stores an alert only when the others about the round are more than
an hour old. -/
theorem alertOnce_stored (hseen : seen ≤ m.ts)
    (h : alertOnce readInt n host round report seen m = (n', .emitted true)) :
    HasAlert readInt n' (round, m.ts) ∧
      ∀ ts, HasAlert readInt n (round, ts) → Flt.IsDouble ts → ts + 3600 < m.ts := by
  unfold alertOnce at h
  cases hscan : alertedSince readInt round (alertCutoff seen) n.storage.allEvents with
  | none =>
    rw [hscan] at h
    cases (Prod.mk.inj h).2
  | some found =>
    rw [hscan] at h
    cases found with
    | true => cases (Prod.mk.inj h).2
    | false =>
      dsimp only at h
      split at h
      · rename_i n'' stored hemit
        obtain ⟨rfl, hending⟩ := Prod.mk.inj h
        obtain rfl := PassEnd.emitted.inj hending
        refine ⟨?_, fun ts hts hdouble => ?_⟩
        · have hentry := emit_entry (congrArg Call.result hemit)
          rw [hemit] at hentry
          exact ⟨_, hentry, rfl, readAlert_alertPayload n host round report m.made, rfl⟩
        · by_contra hnear
          have hat : atLeast (.fin ts) (alertCutoff seen) = true := atLeast_cutoff hdouble (by linarith)
          obtain ⟨e, he, hrecent⟩ := hts.recent hat
          exact alertedSince_false readInt hscan e he hrecent
      · cases (Prod.mk.inj h).2

theorem alertOnce_stay (readInt : String → Option Int) (n : Node) (host : Host) (round : Int)
    (report : Node.CheckpointVerificationReport) (seen : ℚ) (m : Moment) :
    EntriesStay n (alertOnce readInt n host round report seen m).1 := by
  have hstay := emit_stay n .A (alertPayload n host round report m.made) (.fin m.ts) (.fin m.now) m.pick
  unfold alertOnce
  split
  · exact List.Subset.refl _
  · exact List.Subset.refl _
  · split
    · rename_i n' stored hemit
      rw [hemit] at hstay
      exact hstay
    · rename_i n' err hemit
      rw [hemit] at hstay
      exact hstay

end Ending

/-! ## Runs -/

namespace TamperWatch
variable {readInt : String → Option Int} {s : TamperWatch}

structure Inv (readInt : String → Option Int) (s : TamperWatch) : Prop where
  stored : ∀ a ∈ s.alerts, HasAlert readInt s.node a
  doubles : ∀ a ∈ s.alerts, Flt.IsDouble a.2
  hourly : s.alerts.Pairwise fun a b => a.1 = b.1 → a.2 + 3600 < b.2
  evidence : ∀ round report, s.pass = .suspects round report →
    report.hasTamperEvidence = true ∧ report.checkpointRound = round

theorem Inv.start (hpass : s.pass = .idle) (halerts : s.alerts = []) : Inv readInt s := by
  refine ⟨?_, ?_, ?_, fun round report h => ?_⟩
  · rw [halerts]
    exact fun a ha => absurd ha List.not_mem_nil
  · rw [halerts]
    exact fun a ha => absurd ha List.not_mem_nil
  · rw [halerts]
    exact List.Pairwise.nil
  · rw [hpass] at h
    cases h

theorem alert_node {round : Int} {report : Node.CheckpointVerificationReport} {seen : ℚ} {m : Moment}
    (h : s.pass = .suspects round report) :
    (s.alert readInt seen m).node = (alertOnce readInt s.node s.host round report seen m).1 := by
  unfold TamperWatch.alert
  rw [h]

/-- A change of the node that keeps the alerts. -/
theorem Inv.setNode (h : Inv readInt s) {n : Node}
    (hstay : ∀ a ∈ s.alerts, HasAlert readInt s.node a → HasAlert readInt n a) : Inv readInt { s with node := n } :=
  ⟨fun a ha => hstay a ha (h.stored a ha), h.doubles, h.hourly, h.evidence⟩

/-- A change of the pass that brings no evidence with it. -/
theorem Inv.setPass (h : Inv readInt s) {pass : VerifyPass}
    (hpass : ∀ round report, pass = .suspects round report →
      report.hasTamperEvidence = true ∧ report.checkpointRound = round) : Inv readInt { s with pass := pass } :=
  ⟨h.stored, h.doubles, h.hourly, hpass⟩

/-- A clear begins a new list of alerts. -/
theorem Inv.clear (h : Inv readInt s) (genesisTs now : Flt) : Inv readInt (s.step readInt (.clear genesisTs now)) :=
  ⟨fun _ ha => absurd ha List.not_mem_nil, fun _ ha => absurd ha List.not_mem_nil, List.Pairwise.nil, h.evidence⟩

theorem verifyCheckpoint_round {n : Node} {round : Int} {report : Node.CheckpointVerificationReport}
    (h : n.verifyCheckpoint round = .ok report) : report.checkpointRound = round := by
  unfold Node.verifyCheckpoint at h
  split at h
  · cases h
  · cases h
  · exact (congrArg Node.CheckpointVerificationReport.checkpointRound (Except.ok.inj h)).symm

theorem Inv.choose (h : Inv readInt s) : Inv readInt s.choose := by
  unfold TamperWatch.choose
  split
  · exact h.setPass fun _ _ heq => VerifyPass.noConfusion heq
  · exact h

theorem Inv.verify (h : Inv readInt s) : Inv readInt s.verify := by
  unfold TamperWatch.verify
  split
  · rename_i round hpass
    split
    · rename_i report hreport
      refine h.setPass fun round' report' heq => ?_
      by_cases hevidence : report.hasTamperEvidence = true
      · rw [if_pos hevidence] at heq
        obtain ⟨rfl, rfl⟩ := VerifyPass.suspects.inj heq
        exact ⟨hevidence, verifyCheckpoint_round hreport⟩
      · rw [if_neg hevidence] at heq
        exact VerifyPass.noConfusion heq
    · exact h.setPass fun _ _ heq => VerifyPass.noConfusion heq
  · exact h

theorem Inv.alert (h : Inv readInt s) {seen : ℚ} {m : Moment} (hseen : seen ≤ m.ts) (hdouble : Flt.IsDouble m.ts) :
    Inv readInt (s.alert readInt seen m) := by
  unfold TamperWatch.alert
  split
  · rename_i round report hpass
    have hstay := alertOnce_stay readInt s.node s.host round report seen m
    cases hcall : alertOnce readInt s.node s.host round report seen m with
    | mk n ending =>
      rw [hcall] at hstay
      dsimp only
      have hnode : ∀ a ∈ s.alerts, HasAlert readInt n a := fun a ha => hstay.hasAlert (h.stored a ha)
      by_cases hending : ending = .emitted true
      · subst hending
        obtain ⟨hnew, hspaced⟩ := alertOnce_stored hseen hcall
        rw [if_pos rfl]
        refine ⟨fun a ha => ?_, fun a ha => ?_, ?_, fun _ _ heq => VerifyPass.noConfusion heq⟩
        · rcases List.mem_append.1 ha with ha | ha
          · exact hnode a ha
          · rw [List.mem_singleton.1 ha]
            exact hnew
        · rcases List.mem_append.1 ha with ha | ha
          · exact h.doubles a ha
          · rw [List.mem_singleton.1 ha]
            exact hdouble
        · refine List.pairwise_append.2 ⟨h.hourly, List.pairwise_singleton _ _, fun a ha b hb hround => ?_⟩
          rw [List.mem_singleton.1 hb] at hround ⊢
          obtain ⟨r, ts⟩ := a
          obtain rfl : r = round := hround
          exact hspaced ts (h.stored _ ha) (h.doubles _ ha)
      · rw [if_neg hending]
        exact ⟨hnode, h.doubles, h.hourly, fun _ _ heq => VerifyPass.noConfusion heq⟩
  · exact h

theorem step_inv (h : Inv readInt s) (act : WatchAct) (hreg : s.Regular readInt act) :
    Inv readInt (s.step readInt act) := by
  cases act with
  | choose => exact h.choose
  | verify => exact h.verify
  | alert seen m => exact h.alert hreg.1 hreg.2
  | emit cls payload ts now pick => exact h.setNode fun a _ => (emit_stay s.node cls payload ts now pick).hasAlert
  | ingest envelopes => exact h.setNode fun a _ => (ingest_stay s.node envelopes).hasAlert
  | retain now => exact h.setNode fun a _ => retain_hasAlert hreg now
  | checkpoint table => exact h.setNode fun a _ ha => ha
  | clear genesisTs now => exact h.clear genesisTs now
  | edit x edit => exact h.setNode fun a _ => edit_hasAlert edit hreg
  | restart genesisTs boot =>
    have hnode := h.setNode (n := (s.node.restart (s.node.selfIdentity s.host) genesisTs boot).node)
      fun a _ => (restart_stay _ _ _).hasAlert
    exact hnode.setPass fun _ _ heq => VerifyPass.noConfusion heq

/-- A pass whose emission stores its event has one alert more. -/
theorem alert_emitted {round : Int} {report : Node.CheckpointVerificationReport} {seen : ℚ} {m : Moment}
    (hpass : s.pass = .suspects round report)
    (hscan : alertedSince readInt round (alertCutoff seen) s.node.storage.allEvents = some false)
    (hemit : (s.node.emitEvent .A (alertPayload s.node s.host round report m.made) (.fin m.ts) (.fin m.now)
      m.pick).result = .ok true) : (s.alert readInt seen m).alerts = s.alerts ++ [(round, m.ts)] := by
  unfold TamperWatch.alert alertOnce
  rw [hpass]
  dsimp only
  rw [hscan]
  dsimp only
  split
  · rename_i n stored hcall
    rw [hcall] at hemit
    obtain rfl := Except.ok.inj hemit
    rfl
  · rename_i n err hcall
    rw [hcall] at hemit
    cases hemit

end TamperWatch

/-- **Tamper alerts.** In every run in which retention keeps class A, nobody
edits the alerts and no pass reads an earlier clock for its alert than for its
scan, whatever else happens between the parts of the passes: the alerts about
one round since the last clear are more than an hour apart, and all of them
stay in the journal. A pass that gets to its end has found the root of its
round not to match, and afterwards the journal has an alert about the round
from the last hour, unless its emission failed or an alert in the journal
cannot be read. -/
theorem tamper_alerts_hourly (readInt : String → Option Int) {s : TamperWatch} (hpass : s.pass = .idle)
    (halerts : s.alerts = []) {acts : List WatchAct}
    (hacts : Admits (TamperWatch.step readInt) (fun s act => s.Regular readInt act) s acts) :
    ((run (TamperWatch.step readInt) s acts).alerts.Pairwise fun a b => a.1 = b.1 → a.2 + 3600 < b.2) ∧
      (∀ a ∈ (run (TamperWatch.step readInt) s acts).alerts,
        HasAlert readInt (run (TamperWatch.step readInt) s acts).node a) ∧
      ∀ pre seen m, pre ++ [.alert seen m] <+: acts → ∀ round report,
        (run (TamperWatch.step readInt) s pre).pass = .suspects round report →
          report.hasTamperEvidence = true ∧ report.checkpointRound = round ∧
          ((∃ e ∈ (run (TamperWatch.step readInt) s pre).node.storage.allEvents,
              readAlert readInt e.payload = .unreadable) ∨
            (alertedSince readInt round (alertCutoff seen)
                (run (TamperWatch.step readInt) s pre).node.storage.allEvents = some false ∧
              ((run (TamperWatch.step readInt) s pre).node.emitEvent .A
                (alertPayload (run (TamperWatch.step readInt) s pre).node (run (TamperWatch.step readInt) s pre).host
                  round report m.made) (.fin m.ts) (.fin m.now) m.pick).result ≠ .ok true) ∨
            ∃ e ∈ (run (TamperWatch.step readInt) s (pre ++ [.alert seen m])).node.storage.allEvents,
              RecentAlert readInt round (alertCutoff seen) e) := by
  have hrun : ∀ pre, pre <+: acts → TamperWatch.Inv readInt (run (TamperWatch.step readInt) s pre) :=
    fun pre hpre => run_invariant (I := TamperWatch.Inv readInt) (fun _ act h hreg => TamperWatch.step_inv h act hreg)
      (TamperWatch.Inv.start hpass halerts) (hacts.of_initial hpre)
  refine ⟨(hrun acts (List.prefix_refl _)).hourly, (hrun acts (List.prefix_refl _)).stored, ?_⟩
  intro pre seen m hpre round report hsuspects
  obtain ⟨hevidence, hround⟩ := (hrun pre ((List.prefix_append _ _).trans hpre)).evidence round report hsuspects
  obtain ⟨hseen, hdouble⟩ := admits_iff_steps.1 hacts pre _ hpre
  refine ⟨hevidence, hround, ?_⟩
  rw [run_concat]
  change _ ∨ _ ∨ ∃ e ∈ (TamperWatch.alert readInt _ seen m).node.storage.allEvents, _
  rw [TamperWatch.alert_node hsuspects]
  exact alertOnce_recent hseen hdouble rfl

section Alarm

/-- A confirmed round whose events are gone, in an empty journal. -/
def lostRound : TamperWatch where
  node := {
    config := { nodeId := "a" }
    membership := ⟨[], ""⟩
    storage := { checkpoints := [(1, ⟨"", "", [], .confirmed, none, .fin 1⟩)] } }
  host := ⟨"", "", "", "", 0⟩

def lostReport : Node.CheckpointVerificationReport :=
  ⟨false, "", "", 1, true, ["no local events at or before target round"]⟩

/-- The pass emits an alert, and a peer sends an event. -/
def alarmed : List WatchAct :=
  [.retain (.fin 5), .choose, .verify] ++ [.alert 10 ⟨10, 10, 10, 0⟩] ++
    [.ingest [(⟨Event.linked "e" "b" [], []⟩, .fin 11)]]

theorem lostRound_suspects : run (TamperWatch.step fun _ => none) lostRound [.retain (.fin 5), .choose, .verify] =
    { lostRound with pass := .suspects 1 lostReport } := rfl

theorem recompute_unlinked {n : Node} (hn : n.storage.ids.Nodup) (hedges : n.storage.edges = []) :
    n.recomputeConsensus.result = .ok () := by
  have hsome : (Kahn.toposort n.storage.ids n.storage.edges).isSome = true := by
    refine (Kahn.toposort_isSome_iff hn).2 fun x hcycle => ?_
    rw [hedges] at hcycle
    cases hcycle with
    | single hedge => cases hedge.1
    | tail _ hedge => cases hedge.1
  obtain ⟨order, horder⟩ := Option.isSome_iff_exists.1 hsome
  have hsort : n.storage.toposort = .ok order := by
    unfold DAGStorage.toposort
    rw [horder]
  unfold Node.recomputeConsensus
  split
  · rfl
  · rw [hsort]
    dsimp only
    split
    · rfl
    · rfl

/-- The first event of the journal can be stored, whatever its digest is. -/
theorem lostRound_emits (payload : Json) :
    (lostRound.node.emitEvent .A payload (.fin 10) (.fin 10) 0).result = .ok true := by
  have hparents : (lostRound.node.nextEvent .A payload (.fin 10) 0).parents = [] := rfl
  have hinsert : DAGStorage.insertError (lostRound.node.nextEvent .A payload (.fin 10) 0) = none := rfl
  unfold Node.emitEvent
  dsimp only
  generalize lostRound.node.nextEvent .A payload (.fin 10) 0 = event at hparents hinsert ⊢
  obtain ⟨n, hpersist, hids, hedges⟩ : ∃ n, ({ lostRound.node with
      anchors := lostRound.node.anchorIds } : Node).persistEnvelope
        ⟨event, [⟨some lostRound.node.config.nodeId, some (.fin 10)⟩]⟩ (.fin 10) = ⟨n, .ok true⟩ ∧
          n.storage.ids = [event.id] ∧ n.storage.edges = [] := by
    have hnew : event.id ∉ lostRound.node.storage.ids := List.not_mem_nil
    unfold Node.persistEnvelope DAGStorage.storeEnvelope
    dsimp only
    rw [if_neg hnew, hinsert, hparents]
    exact ⟨_, rfl, rfl, rfl⟩
  have hrecompute := recompute_unlinked (hids ▸ List.nodup_singleton event.id) hedges
  rw [hpersist]
  dsimp only
  split
  · rename_i n' err hcall
    rw [hcall] at hrecompute
    cases hrecompute
  · rfl

theorem alarmed_alerts : (run (TamperWatch.step fun _ => none) lostRound alarmed).alerts = [(1, 10)] := by
  have hkept : ∀ (s : TamperWatch) (envelopes : List (Envelope × Flt)),
      (s.step (fun _ => none) (.ingest envelopes)).alerts = s.alerts := fun _ _ => rfl
  have hscan : alertedSince (fun _ => none) 1 (alertCutoff 10) lostRound.node.storage.allEvents = some false := rfl
  have hemit := lostRound_emits (alertPayload lostRound.node lostRound.host 1 lostReport 10)
  unfold alarmed
  rw [run_concat, hkept, run_concat, lostRound_suspects]
  exact TamperWatch.alert_emitted (s := { lostRound with pass := .suspects 1 lostReport }) (m := ⟨10, 10, 10, 0⟩)
    rfl hscan hemit

theorem alarmed_regular : Admits (TamperWatch.step fun _ => none) (fun s act => s.Regular (fun _ => none) act)
    lostRound alarmed :=
  ⟨rfl, trivial, trivial, ⟨le_rfl, by decide +kernel⟩, trivial, trivial⟩

/-- The alert of the pass is in the journal at the end. -/
theorem tamper_alerts_hourly_alarmed :
    HasAlert (fun _ => none) (run (TamperWatch.step fun _ => none) lostRound alarmed).node (1, 10) := by
  obtain ⟨-, hstay, -⟩ := tamper_alerts_hourly (fun _ => none) rfl rfl alarmed_regular
  refine hstay (1, 10) ?_
  rw [alarmed_alerts]
  exact List.mem_cons_self

end Alarm
end Mdrj.L4
