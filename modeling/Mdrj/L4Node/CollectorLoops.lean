import Mathlib
import Mdrj.Core.Runs
import Mdrj.L4Node.Collectors
import Mdrj.L4Node.Policy
import Mdrj.L4Node.Tailing

/-!
# The loops over the collectors

Each collector has a loop that polls it and hands the events of the batch to
`emit_event` one by one; the auth log ingestor has a loop of its own, written
separately. An exception leaves the loop over the batch, whose rest is not
handled any more. The collector loops ask the collection policy about each
event, the ingest loop does not.

**Results.**
* `failed_emission_iff`: what a batch loses to a failed emission.
* `log_batch_lost`: of a log that only grows, no later poll returns it again.
* `enabled_run`: which kinds are enabled is decided by the calls so far.
* `policy_enforced_iff`: in a run of both kinds of loops and of policy calls,
  no event of a disabled kind is stored if and only if the calls have left
  enabled what the ingest loop stores.
-/
namespace Mdrj.L4.Loops
open Mdrj.Core Mdrj.L1 Mdrj.L3 Mdrj.L4.Policy Mdrj.L4.Collect Mdrj.L4.Ingest

/-! ## Handling one event -/

/-- What an event meets when its turn comes: the policy, and how its emission
ends. -/
structure Moment where
  catalog : Catalog
  emission : Emission

inductive Handling where
  | skipped | dropped | emitted | raised
  deriving DecidableEq

/-- The kind is known and enabled. -/
def Wanted (catalog : Catalog) (kind : String) : Prop :=
  catalog.isKnownEventKind kind = true ∧ catalog.registryEnabledFor kind = true

instance (catalog : Catalog) (kind : String) : Decidable (Wanted catalog kind) := inferInstanceAs (Decidable (_ ∧ _))

/-- An exception of the emission leaves the loop. -/
def emissionHandling (emission : Emission) : Handling :=
  match emission.raised with
  | some _ => .raised
  | none => .emitted

/-- The body of a loop over a batch: which events it emits, what it writes, and
how it goes on. -/
structure EventLoop (ε : Type) where
  kind : ε → String
  emits : Catalog → ε → Prop
  body : ε → Moment → Journal → Journal × Handling
  wanted : ∀ {catalog event}, Wanted catalog (kind event) → emits catalog event
  emission : ∀ {event m}, emits m.catalog event → ∀ journal, (body event m journal).2 = emissionHandling m.emission
  passed : ∀ {event m}, ¬ emits m.catalog event → ∀ journal, (body event m journal).2 ≠ .raised
  blind : ∀ event m journal journal', (body event m journal).2 = (body event m journal').2

/-- mirrors mdrj/node.py:1170-1193; with `relay` the event is sent to a central
collector.  -/
def collectorBody (relay : Bool) (event : CollectedEvent) (m : Moment) (journal : Journal) : Journal × Handling :=
  match Dict.get m.catalog.classes event.eventKind with
  | none => (journal, .skipped)
  | some cls =>
    if !m.catalog.registryEnabledFor event.eventKind then (journal, .dropped)
    else if relay then (journal, emissionHandling m.emission)
    else (m.emission.journal journal cls (.obj event.toPayload), emissionHandling m.emission)

/-- mirrors mdrj/node.py:1972-1976 -/
def ingestBody (payload : Ingest.Payload) (m : Moment) (journal : Journal) : Journal × Handling :=
  (m.emission.journal journal .A payload.toJson, emissionHandling m.emission)

def collectorLoop (relay : Bool) : EventLoop CollectedEvent where
  kind := CollectedEvent.eventKind
  emits catalog event := Wanted catalog event.eventKind
  body := collectorBody relay
  wanted h := h
  emission {event m} h journal := by
    obtain ⟨cls, hcls⟩ := Option.isSome_iff_exists.1 h.1
    unfold collectorBody
    rw [hcls, h.2]
    cases relay <;> rfl
  passed {event m} h journal := by
    unfold collectorBody
    split
    · exact nofun
    · next cls hcls =>
      split
      · exact nofun
      · next henabled => exact absurd ⟨Option.isSome_iff_exists.2 ⟨cls, hcls⟩, by simpa using henabled⟩ h
  blind event m journal journal' := by
    unfold collectorBody
    split
    · rfl
    · split
      · rfl
      · split <;> rfl

def ingestLoop : EventLoop Ingest.Payload where
  kind := Ingest.Payload.eventKind
  emits _ _ := True
  body := ingestBody
  wanted _ := trivial
  emission _ _ := rfl
  passed h := absurd trivial h
  blind _ _ _ _ := rfl

/-! ## A batch -/

section Batches
variable {σ ω ε : Type} (loop : EventLoop ε) (moments : Nat → Moment)

/-- The loop over a batch from its `i`-th event on; an exception leaves it. -/
def handleBatch : Nat → Journal → List ε → Journal × List Handling
  | _, journal, [] => (journal, [])
  | i, journal, event :: rest =>
    match loop.body event (moments i) journal with
    | (journal, .raised) => (journal, [.raised])
    | (journal, handling) =>
      match handleBatch (i + 1) journal rest with
      | (journal, handlings) => (journal, handling :: handlings)

/-- How an event is handled when its turn comes. -/
def EventLoop.handling (event : ε) (m : Moment) : Handling := (loop.body event m []).2

/-- The batches of later polls. -/
def Poller.batches (poller : Poller σ ω ε) : σ → List ω → List (List ε)
  | _, [] => []
  | s, w :: ws =>
    match poller.poll s w with
    | (s, .ok events) => events :: batches poller s ws
    | (s, .error _) => batches poller s ws

/-- Every event of a known and enabled kind whose own emission did not raise
is emitted, or among those returned later. -/
def NoneLost (journal : Journal) (events : List ε) (later : List (List ε)) : Prop :=
  ∀ i event, events[i]? = some event → Wanted (moments i).catalog (loop.kind event) →
    (handleBatch loop moments 0 journal events).2[i]? ≠ some .raised →
    (handleBatch loop moments 0 journal events).2[i]? = some .emitted ∨ ∃ batch ∈ later, event ∈ batch

/-- No event of a known and enabled kind stands behind one whose emission
raises. -/
def NothingBehind (events : List ε) : Prop :=
  ∀ i j, i < j → ∀ event, events[i]? = some event →
    loop.emits (moments i).catalog event → (moments i).emission.raised.isSome = true →
    ∀ event', events[j]? = some event' → ¬ Wanted (moments j).catalog (loop.kind event')

end Batches

section Batches
variable {σ ω ε : Type} {loop : EventLoop ε} {moments : Nat → Moment}

/-- An event raises if its emission is tried and raises. -/
theorem handling_raised_iff {event : ε} {m : Moment} :
    loop.handling event m = .raised ↔ loop.emits m.catalog event ∧ m.emission.raised.isSome = true := by
  by_cases hemits : loop.emits m.catalog event
  · have heq : loop.handling event m = emissionHandling m.emission := loop.emission hemits []
    rw [heq, and_iff_right hemits]
    unfold emissionHandling
    cases m.emission.raised <;> simp
  · exact iff_of_false (loop.passed hemits []) fun h => hemits h.1

/-- One step of the loop. -/
theorem handleBatch_cons (start : Nat) (journal : Journal) (event : ε) (rest : List ε) :
    (loop.handling event (moments start) = .raised ∧
      (handleBatch loop moments start journal (event :: rest)).2 = [.raised]) ∨
    (loop.handling event (moments start) ≠ .raised ∧ ∃ journal',
      (handleBatch loop moments start journal (event :: rest)).2 =
        loop.handling event (moments start) :: (handleBatch loop moments (start + 1) journal' rest).2) := by
  have hblind : (loop.body event (moments start) journal).2 = loop.handling event (moments start) :=
    loop.blind event (moments start) journal []
  rcases hbody : loop.body event (moments start) journal with ⟨journal', handling⟩
  rw [hbody] at hblind
  rw [← hblind, handleBatch, hbody]
  cases handling with
  | raised => exact .inl ⟨rfl, rfl⟩
  | skipped => exact .inr ⟨nofun, journal', rfl⟩
  | dropped => exact .inr ⟨nofun, journal', rfl⟩
  | emitted => exact .inr ⟨nofun, journal', rfl⟩

/-- An event behind one that raises is not handled. -/
theorem unhandled {events : List ε} : ∀ {start : Nat} {journal : Journal} {m k : Nat} {event : ε}, m < k →
    events[m]? = some event → loop.handling event (moments (start + m)) = .raised →
    (handleBatch loop moments start journal events).2[k]? = none := by
  induction events with
  | nil =>
    intro start journal m k event _ hevent
    cases hevent
  | cons first rest ih =>
    intro start journal m k event hmk hevent hraises
    rcases handleBatch_cons start journal first rest with ⟨-, heq⟩ | ⟨hne, journal', heq⟩
    · rw [heq]
      exact List.getElem?_eq_none (by simp only [List.length_singleton]; omega)
    · rw [heq]
      cases m with
      | zero =>
        obtain rfl := Option.some.inj hevent
        exact absurd hraises hne
      | succ m =>
        obtain ⟨k, rfl⟩ := Nat.exists_eq_succ_of_ne_zero (by omega : k ≠ 0)
        rw [Nat.succ_eq_add_one, List.getElem?_cons_succ]
        refine ih (by omega) hevent ?_
        rwa [Nat.add_assoc, Nat.add_comm 1 m]

/-- An event is handled if none before it raises. -/
theorem handled {events : List ε} : ∀ {start : Nat} {journal : Journal} {k : Nat} {event : ε},
    events[k]? = some event →
    (∀ m < k, ∀ before, events[m]? = some before → loop.handling before (moments (start + m)) ≠ .raised) →
    (handleBatch loop moments start journal events).2[k]? = some (loop.handling event (moments (start + k))) := by
  induction events with
  | nil =>
    intro start journal k event hevent
    cases hevent
  | cons first rest ih =>
    intro start journal k event hevent hbefore
    cases k with
    | zero =>
      obtain rfl := Option.some.inj hevent
      rcases handleBatch_cons start journal first rest with ⟨hraised, heq⟩ | ⟨-, journal', heq⟩
      · rw [heq, Nat.add_zero, hraised]
        rfl
      · rw [heq]
        rfl
    | succ k =>
      have hfirst := hbefore 0 (by omega) first rfl
      rcases handleBatch_cons start journal first rest with ⟨hraised, -⟩ | ⟨-, journal', heq⟩
      · exact absurd hraised hfirst
      · rw [heq, List.getElem?_cons_succ]
        have hrest : start + (k + 1) = start + 1 + k := by omega
        rw [hrest]
        refine ih hevent fun m hm before hget => ?_
        have hm' := hbefore (m + 1) (by omega) before hget
        rwa [show start + (m + 1) = start + 1 + m by omega] at hm'

/-- A wanted event is emitted or raises. -/
theorem handling_wanted {event : ε} {m : Moment} (h : Wanted m.catalog (loop.kind event)) :
    loop.handling event m = .raised ∨ loop.handling event m = .emitted := by
  have heq : loop.handling event m = emissionHandling m.emission := loop.emission (loop.wanted h) []
  rw [heq]
  unfold emissionHandling
  split
  · exact .inl rfl
  · exact .inr rfl

/-- If nothing stands behind a failure, nothing is lost. -/
theorem noneLost_of_nothingBehind {events : List ε} (h : NothingBehind loop moments events) (journal : Journal)
    (later : List (List ε)) : NoneLost loop moments journal events later := by
  intro i event hevent hwanted hself
  have hreached : ∀ m < i, ∀ before, events[m]? = some before →
      loop.handling before (moments (0 + m)) ≠ .raised := by
    intro m hm before hbefore hraises
    rw [Nat.zero_add] at hraises
    obtain ⟨hemits, hraised⟩ := handling_raised_iff.1 hraises
    exact h m i hm before hbefore hemits hraised event hevent hwanted
  have hget : (handleBatch loop moments 0 journal events).2[i]? = some (loop.handling event (moments (0 + i))) :=
    handled hevent hreached
  rw [Nat.zero_add] at hget
  rcases handling_wanted hwanted with hraised | hemitted
  · rw [hget, hraised] at hself
    exact absurd rfl hself
  · rw [hget, hemitted]
    exact .inl rfl

/-- An event behind a failure is lost unless a later poll returns it. -/
theorem returned_of_noneLost {events : List ε} {journal : Journal} {later : List (List ε)}
    (h : NoneLost loop moments journal events later) {i j : Nat} (hij : i < j) {event event' : ε}
    (hevent : events[i]? = some event) (hemits : loop.emits (moments i).catalog event)
    (hraised : (moments i).emission.raised.isSome = true)
    (hevent' : events[j]? = some event') (hwanted : Wanted (moments j).catalog (loop.kind event')) :
    ∃ batch ∈ later, event' ∈ batch := by
  have hraises : loop.handling event (moments (0 + i)) = .raised := by
    rw [Nat.zero_add]
    exact handling_raised_iff.2 ⟨hemits, hraised⟩
  have hnone : (handleBatch loop moments 0 journal events).2[j]? = none := unhandled hij hevent hraises
  rcases h j event' hevent' hwanted (by rw [hnone]; exact fun h => nomatch h) with hemitted | hlater
  · rw [hnone] at hemitted
    cases hemitted
  · exact hlater

/-- Any number of later polls may find nothing. -/
theorem exists_idle (poller : Poller σ ω ε) {s s' : σ} {w : ω} {events : List ε}
    (hpoll : poller.poll s w = (s', .ok events)) (n : Nat) :
    ∃ later : List ω, later.length = n ∧ ∀ batch ∈ Poller.batches poller s' later, batch = [] := by
  induction n with
  | zero => exact ⟨[], rfl, fun _ h => nomatch h⟩
  | succ n ih =>
    obtain ⟨idle, hidle⟩ := poller.settles hpoll
    obtain ⟨later, hlength, hempty⟩ := ih
    refine ⟨idle :: later, congrArg (· + 1) hlength, ?_⟩
    unfold Poller.batches
    rw [hidle]
    exact List.forall_mem_cons.2 ⟨rfl, hempty⟩

/-- Whatever later polls meet, nothing of a batch is lost, if and only if
nothing stands behind a failure. -/
theorem loss_iff (poller : Poller σ ω ε) {s s' : σ} {w : ω} {events : List ε}
    (hpoll : poller.poll s w = (s', .ok events)) (journal : Journal) (n : Nat) :
    (∀ later : List ω, later.length = n → NoneLost loop moments journal events (Poller.batches poller s' later)) ↔
      NothingBehind loop moments events := by
  constructor
  · intro h i j hij event hevent hemits hraised event' hevent' hwanted
    obtain ⟨later, hlength, hempty⟩ := exists_idle poller hpoll n
    obtain ⟨batch, hbatch, hmem⟩ := returned_of_noneLost (h later hlength) hij hevent hemits hraised hevent' hwanted
    rw [hempty batch hbatch] at hmem
    exact List.not_mem_nil hmem
  · intro h later _
    exact noneLost_of_nothingBehind h journal _

end Batches

/-! ## The auth log -/

section AuthLog
variable (host : Ingest.Host) (config : IngestConfig)

/-- The auth log as a poll meets it, and the clock. -/
structure LogRead where
  inode : Nat
  content : List UInt8
  now : Flt
  readings : Nat → Reading

/-- A poll of the auth log, if there is one.
mirrors mdrj/linux_ingest.py:106-133 -/
def ingestPoll (s : Ingestor) : Option LogRead → Ingestor × Except PyError (List Ingest.Payload)
  | none => (s, .error (.osError ("auth log path does not exist: " ++ config.authLogPath)))
  | some read => Ingestor.poll host config s read.inode read.content read.now read.readings

end AuthLog

section AuthLog
variable {host : Ingest.Host} {config : IngestConfig} {s s' : Ingestor} {read : LogRead}
  {payloads : List Ingest.Payload}

/-- A poll that returns has read the log to its end. -/
theorem ingestPoll_ok (h : ingestPoll host config s (some read) = (s', .ok payloads)) :
    s'.inode = read.inode ∧ s'.offset = read.content.length ∧
      ∃ offset bursts, (s.inode = read.inode → s.offset ≤ read.content.length → offset = s.offset) ∧
        readLines host config read.now read.readings s.bursts (linesFrom offset read.content) =
          (bursts, .ok payloads) := by
  unfold ingestPoll Ingestor.poll at h
  dsimp only at h
  split at h
  · next bursts _ hread =>
    obtain ⟨rfl, hpayloads⟩ := Prod.mk.inj h
    obtain rfl := Except.ok.inj hpayloads
    refine ⟨rfl, rfl, _, bursts, fun hinode hoffset => ?_, hread⟩
    rw [if_neg]
    rintro (hne | hlt)
    · exact hne hinode
    · omega
  · cases (Prod.mk.inj h).2

/-- The same log again: nothing is reported. -/
theorem ingestPoll_settles (h : ingestPoll host config s (some read) = (s', .ok payloads)) :
    ingestPoll host config s' (some read) = (s', .ok []) := by
  obtain ⟨hinode, hoffset, -⟩ := ingestPoll_ok h
  have hlines : linesFrom read.content.length read.content = [] := by
    unfold linesFrom
    rw [List.drop_length]
    rfl
  unfold ingestPoll Ingestor.poll
  dsimp only
  rw [hinode, hoffset, if_neg (by simp), hlines]
  dsimp only [readLines]
  rw [← hinode, ← hoffset]

end AuthLog

def ingestPoller (host : Ingest.Host) (config : IngestConfig) : Poller Ingestor (Option LogRead) Ingest.Payload where
  poll := ingestPoll host config
  settles {s read s' events} h := by
    cases read with
    | none => cases (Prod.mk.inj h).2
    | some read => exact ⟨some read, ingestPoll_settles h⟩

/-! ## A log that only grows -/

section Growing
variable {host : Ingest.Host} {config : IngestConfig} {s s' : Ingestor} {read : LogRead}
  {payloads : List Ingest.Payload}

theorem parseOther_rawRef {bursts bursts' : Bursts} {line : List Char} {o : Nat} {now : Flt} {payload : Ingest.Payload}
    (h : parseOther host config bursts line o now = .ok (bursts', some payload)) :
    Tailing.rawRefOf payload = rawRef config o := by
  unfold parseOther at h
  split at h
  · cases h
  · split at h
    · dsimp only at h
      split at h
      · obtain ⟨-, hpayload⟩ := Prod.mk.inj (Except.ok.inj h)
        obtain rfl := Option.some.inj hpayload
        rfl
      · cases (Prod.mk.inj (Except.ok.inj h)).2
    · split at h
      · split at h
        · obtain ⟨-, hpayload⟩ := Prod.mk.inj (Except.ok.inj h)
          obtain rfl := Option.some.inj hpayload
          rfl
        · cases (Prod.mk.inj (Except.ok.inj h)).2
      · cases (Prod.mk.inj (Except.ok.inj h)).2

/-- A report names the offset of its line. -/
theorem parseLine_rawRef {bursts bursts' : Bursts} {line : List Char} {o : Nat} {now : Flt} {reading : Reading}
    {payload : Ingest.Payload} (h : parseLine host config bursts line o now reading = .ok (bursts', some payload)) :
    Tailing.rawRefOf payload = rawRef config o := by
  cases hlogin : acceptedLogin host line with
  | none =>
    unfold parseLine at h
    rw [hlogin] at h
    exact parseOther_rawRef h
  | some found =>
    rcases (Tailing.login_parsed hlogin h).2 with ⟨-, hnone⟩ | ⟨_, _, _, _, -, -, -, -, hpayload⟩
    · cases hnone
    · obtain rfl := Option.some.inj hpayload
      rfl

theorem readLines_rawRef {now : Flt} {readings : Nat → Reading} {lines : List (Nat × List UInt8)} :
    ∀ {bursts bursts' : Bursts} {payloads : List Ingest.Payload},
      readLines host config now readings bursts lines = (bursts', .ok payloads) →
      ∀ p ∈ payloads, ∃ l ∈ lines, Tailing.rawRefOf p = rawRef config l.1 := by
  induction lines with
  | nil =>
    intro bursts bursts' payloads h p hp
    obtain rfl := Except.ok.inj (Prod.mk.inj h).2
    exact absurd hp List.not_mem_nil
  | cons l lines ih =>
    intro bursts bursts' payloads h p hp
    obtain ⟨o, line⟩ := l
    unfold readLines at h
    split at h
    · cases (Prod.mk.inj h).2
    · next payload hparse =>
      split at h
      · next more hmore =>
        obtain rfl := Except.ok.inj (Prod.mk.inj h).2
        rcases List.mem_append.1 hp with hp | hp
        · rw [Option.mem_toList.1 hp] at hparse
          exact ⟨(o, line), List.mem_cons_self, parseLine_rawRef hparse⟩
        · obtain ⟨l, hl, href⟩ := ih hmore p hp
          exact ⟨l, List.mem_cons_of_mem _ hl, href⟩
      · cases (Prod.mk.inj h).2

/-- The reports of a poll lie in what it read. -/
theorem ingestPoll_range (h : ingestPoll host config s (some read) = (s', .ok payloads)) {p : Ingest.Payload}
    (hp : p ∈ payloads) : ∃ o, Tailing.rawRefOf p = rawRef config o ∧ o < read.content.length ∧
      (s.inode = read.inode → s.offset ≤ read.content.length → s.offset ≤ o) := by
  obtain ⟨-, -, offset, bursts, hoffset, hread⟩ := ingestPoll_ok h
  obtain ⟨l, hl, href⟩ := readLines_rawRef hread p hp
  obtain ⟨hlow, hhigh⟩ := segments_range hl
  rw [List.length_drop] at hhigh
  refine ⟨l.1, href, by omega, fun hinode hle => ?_⟩
  rw [← hoffset hinode hle]
  exact hlow

/-- Later polls meet the same file, which is never shorter than before. -/
def Grows (inode : Nat) : Nat → List (Option LogRead) → Prop
  | _, [] => True
  | size, none :: later => Grows inode size later
  | size, some read :: later =>
    read.inode = inode ∧ size ≤ read.content.length ∧ Grows inode read.content.length later

theorem later_offsets {inode bound : Nat} {later : List (Option LogRead)} : ∀ {s : Ingestor} {size : Nat},
    s.inode = inode → bound ≤ s.offset → s.offset ≤ size → Grows inode size later →
    ∀ batch ∈ Poller.batches (ingestPoller host config) s later, ∀ p ∈ batch,
      ∃ o, Tailing.rawRefOf p = rawRef config o ∧ bound ≤ o := by
  induction later with
  | nil => exact fun _ _ _ _ _ h => absurd h List.not_mem_nil
  | cons first later ih =>
    intro s size hinode hbound hsize hgrows batch hbatch p hp
    cases first with
    | none => exact ih hinode hbound hsize hgrows batch hbatch p hp
    | some read =>
      obtain ⟨rfl, hle, hrest⟩ := hgrows
      unfold Poller.batches at hbatch
      split at hbatch
      · next s' events hpoll =>
        obtain ⟨hinode', hoffset', -⟩ := ingestPoll_ok hpoll
        rcases List.mem_cons.1 hbatch with rfl | hbatch
        · obtain ⟨o, href, -, hlow⟩ := ingestPoll_range hpoll hp
          have := hlow hinode (by omega)
          exact ⟨o, href, by omega⟩
        · exact ih hinode' (by omega) (by omega) hrest batch hbatch p hp
      · next s' e hpoll =>
        -- a poll that raises leaves the offset where it is
        have hsame : s'.inode = s.inode ∧ s'.offset = s.offset := by
          have hpoll' : ingestPoll host config s (some read) = (s', .error e) := hpoll
          unfold ingestPoll Ingestor.poll at hpoll'
          dsimp only at hpoll'
          split at hpoll'
          · cases (Prod.mk.inj hpoll').2
          · obtain ⟨rfl, -⟩ := Prod.mk.inj hpoll'
            exact ⟨rfl, rfl⟩
        exact ih (hsame.1.trans hinode) (by omega) (by omega) hrest batch hbatch p hp

/-- **A growing log.** No later poll returns a report of the batch again. -/
theorem log_batch_lost (h : ingestPoll host config s (some read) = (s', .ok payloads))
    {later : List (Option LogRead)} (hgrows : Grows read.inode read.content.length later) {p : Ingest.Payload}
    (hp : p ∈ payloads) : ∀ batch ∈ Poller.batches (ingestPoller host config) s' later, p ∉ batch := by
  intro batch hbatch hagain
  obtain ⟨hinode, hoffset, -⟩ := ingestPoll_ok h
  obtain ⟨o, href, hlt, -⟩ := ingestPoll_range h hp
  obtain ⟨o', href', hle⟩ := later_offsets hinode hoffset.ge hoffset.le hgrows batch hbatch p hagain
  have hsame := Tailing.rawRef_inj (href.symm.trans href')
  omega

/-- So what stands behind a failure is lost for good. -/
theorem log_loss_iff {moments : Nat → Moment} {journal : Journal}
    (h : ingestPoll host config s (some read) = (s', .ok payloads)) {later : List (Option LogRead)}
    (hgrows : Grows read.inode read.content.length later) :
    NoneLost ingestLoop moments journal payloads (Poller.batches (ingestPoller host config) s' later) ↔
      NothingBehind ingestLoop moments payloads := by
  constructor
  · intro hkept i j hij event hevent hemits hraised event' hevent' hwanted
    obtain ⟨batch, hbatch, hmem⟩ := returned_of_noneLost hkept hij hevent hemits hraised hevent' hwanted
    exact log_batch_lost h hgrows (List.mem_of_getElem? hevent') batch hbatch hmem
  · intro hnothing
    exact noneLost_of_nothingBehind hnothing journal _

end Growing

theorem ingestPoller_poll (host : Ingest.Host) (config : IngestConfig) (s : Ingestor) (read : Option LogRead) :
    (ingestPoller host config).poll s read = ingestPoll host config s read := rfl

/-- **What a failed emission costs.** For either loop: whatever later polls
meet, every event of a batch (of a known and enabled kind, its own emission
apart if that raised) is emitted or returned again, if and only if no such
event stands behind one whose emission raises. -/
theorem failed_emission_iff (host : Ingest.Host) (config : IngestConfig) (relay : Bool) (moments : Nat → Moment)
    (journal : Journal) (n : Nat) :
    (∀ (σ ω : Type) (collector : Collector σ ω) (s s' : σ) (w : ω) (events : List CollectedEvent),
      collector.poll s w = (s', .ok events) →
        ((∀ later : List ω, later.length = n →
            NoneLost (collectorLoop relay) moments journal events (Poller.batches collector s' later)) ↔
          NothingBehind (collectorLoop relay) moments events)) ∧
    (∀ (s s' : Ingestor) (read : Option LogRead) (payloads : List Ingest.Payload),
      (ingestPoller host config).poll s read = (s', .ok payloads) →
        ((∀ later : List (Option LogRead), later.length = n →
            NoneLost ingestLoop moments journal payloads (Poller.batches (ingestPoller host config) s' later)) ↔
          NothingBehind ingestLoop moments payloads)) := by
  constructor
  · intro σ ω collector s s' w events hpoll
    exact loss_iff collector hpoll journal n
  · intro s s' read payloads hpoll
    exact loss_iff (ingestPoller host config) hpoll journal n

/-! ## Loops and policy calls -/

/-- The policy and the journal, and what each loop has still to handle of its
batch. -/
structure Collecting where
  policy : PolicyNode
  batches : Nat → List CollectedEvent
  payloads : List Ingest.Payload

/-- What may happen next. An event is checked and emitted in one step: what
becomes of the policy after the check does not matter to the event. -/
inductive CollectAct where
  | setPolicy (call : PolicyCall)
  | collected (loop : Nat) (events : List CollectedEvent)
  | ingested (payloads : List Ingest.Payload)
  | handle (loop : Nat) (emission : Emission)
  | ingest (emission : Emission)

/-- What is left of a batch. -/
def remaining {ε : Type} (rest : List ε) (handling : Handling) : List ε := if handling = .raised then [] else rest

section System
variable (relay : Bool) (printable : Char → Bool)

/-- A loop polls when it has handled its batch. -/
def Collecting.step (c : Collecting) : CollectAct → Collecting
  | .setPolicy call => { c with policy := c.policy.step printable call }
  | .collected i events =>
    match c.batches i with
    | [] => { c with batches := Function.update c.batches i events }
    | _ :: _ => c
  | .ingested payloads =>
    match c.payloads with
    | [] => { c with payloads }
    | _ :: _ => c
  | .handle i emission =>
    match c.batches i with
    | [] => c
    | event :: rest =>
      let done := collectorBody relay event ⟨c.policy.catalog, emission⟩ c.policy.journal
      { c with
        policy := { c.policy with journal := done.1 }
        batches := Function.update c.batches i (remaining rest done.2) }
  | .ingest emission =>
    match c.payloads with
    | [] => c
    | payload :: rest =>
      let done := ingestBody payload ⟨c.policy.catalog, emission⟩ c.policy.journal
      { c with policy := { c.policy with journal := done.1 }, payloads := remaining rest done.2 }

end System

/-- The kind of the event that a step handles. -/
def Collecting.atHand (c : Collecting) : CollectAct → Option String
  | .handle i _ => (c.batches i).head?.map CollectedEvent.eventKind
  | .ingest _ => c.payloads.head?.map Ingest.Payload.eventKind
  | _ => none

/-- The step stores no event of a kind that is disabled now. -/
def Enforced (relay : Bool) (printable : Char → Bool) (c : Collecting) (a : CollectAct) : Prop :=
  ∀ kind, c.atHand a = some kind → c.policy.catalog.registryEnabledFor kind = false →
    (c.step relay printable a).policy.journal = c.policy.journal

/-- What the policy calls make of a kind: the last one accepted for it decides,
without one the table that was there. -/
def decision (c : Collecting) (kind : String) (acts : List CollectAct) : Bool :=
  acts.foldl (fun value a => match a with
    | .setPolicy call => if Policy.Accepted c.policy call.kind ∧ call.kind = kind then call.enabled else value
    | _ => value) (c.policy.catalog.registryEnabledFor kind)

/-- The ingest loop has no event of a disabled kind stored. -/
def Obeys (c : Collecting) : CollectAct → Prop
  | .ingest emission => ∀ payload, c.payloads.head? = some payload →
      c.policy.catalog.registryEnabledFor payload.eventKind = false → emission.stored = false
  | _ => True

section System
variable {relay : Bool} {printable : Char → Bool} {c : Collecting}

/-- A collector loop stores nothing of a disabled kind. -/
theorem collectorBody_disabled {event : CollectedEvent} {m : Moment}
    (h : m.catalog.registryEnabledFor event.eventKind = false) (journal : Journal) :
    (collectorBody relay event m journal).1 = journal := by
  unfold collectorBody
  split
  · rfl
  · rw [h]
    rfl

theorem enforced_step_iff (a : CollectAct) : Enforced relay printable c a ↔ Obeys c a := by
  cases a with
  | setPolicy call => exact ⟨fun _ => trivial, fun _ kind hkind => nomatch hkind⟩
  | collected i events => exact ⟨fun _ => trivial, fun _ kind hkind => nomatch hkind⟩
  | ingested payloads => exact ⟨fun _ => trivial, fun _ kind hkind => nomatch hkind⟩
  | handle i emission =>
    refine ⟨fun _ => trivial, fun _ kind hkind hdisabled => ?_⟩
    unfold Collecting.step
    dsimp only
    unfold Collecting.atHand at hkind
    dsimp only at hkind
    split
    · rfl
    · next event rest hbatch =>
      rw [hbatch] at hkind
      obtain rfl := Option.some.inj hkind
      exact collectorBody_disabled hdisabled c.policy.journal
  | ingest emission =>
    unfold Enforced Obeys Collecting.atHand Collecting.step
    cases hpayloads : c.payloads with
    | nil => exact ⟨fun _ payload hpayload => (nomatch hpayload), fun _ kind hkind => nomatch hkind⟩
    | cons payload rest =>
      dsimp only [List.head?_cons, Option.map_some, ingestBody, Emission.journal]
      constructor
      · intro h payload' hpayload hdisabled
        obtain rfl := Option.some.inj hpayload
        have hsame := h _ rfl hdisabled
        cases hstored : emission.stored with
        | false => rfl
        | true =>
          rw [hstored, if_pos rfl] at hsame
          have hlength := congrArg List.length hsame
          simp at hlength
      · intro h kind hkind hdisabled
        obtain rfl := Option.some.inj hkind
        rw [h payload rfl hdisabled]
        rfl

/-- Only a policy call changes the table. -/
theorem step_catalog (a : CollectAct) : (c.step relay printable a).policy.catalog =
    match a with
    | .setPolicy call => (c.policy.step printable call).catalog
    | _ => c.policy.catalog := by
  cases a with
  | setPolicy call => rfl
  | collected i events =>
    unfold Collecting.step
    dsimp only
    split <;> rfl
  | ingested payloads =>
    unfold Collecting.step
    dsimp only
    split <;> rfl
  | handle i emission =>
    unfold Collecting.step
    dsimp only
    split <;> rfl
  | ingest emission =>
    unfold Collecting.step
    dsimp only
    split <;> rfl

theorem accepted_run (acts : List CollectAct) (kind : String) :
    Policy.Accepted (run (Collecting.step relay printable) c acts).policy kind ↔ Policy.Accepted c.policy kind := by
  induction acts using List.reverseRecOn with
  | nil => rfl
  | append_singleton acts a ih =>
    rw [run_concat, ← ih]
    cases a with
    | setPolicy call => exact accepted_step kind
    | collected i events =>
      unfold Policy.Accepted
      rw [step_catalog]
    | ingested payloads =>
      unfold Policy.Accepted
      rw [step_catalog]
    | handle i emission =>
      unfold Policy.Accepted
      rw [step_catalog]
    | ingest emission =>
      unfold Policy.Accepted
      rw [step_catalog]

/-- A kind is enabled as the calls of the run have decided. -/
theorem enabled_run (acts : List CollectAct) (kind : String) :
    (run (Collecting.step relay printable) c acts).policy.catalog.registryEnabledFor kind = decision c kind acts := by
  induction acts using List.reverseRecOn with
  | nil => rfl
  | append_singleton acts a ih =>
    unfold decision at ih ⊢
    rw [run_concat, step_catalog, List.foldl_concat, ← ih]
    cases a with
    | setPolicy call =>
      dsimp only
      by_cases haccepted : Policy.Accepted (run (Collecting.step relay printable) c acts).policy call.kind
      · rw [step_value haccepted]
        exact if_congr (and_iff_right ((accepted_run acts call.kind).1 haccepted)).symm rfl rfl
      · rw [step_refused haccepted, if_neg]
        intro h
        exact haccepted ((accepted_run acts call.kind).2 h.1)
    | collected i events => rfl
    | ingested payloads => rfl
    | handle i emission => rfl
    | ingest emission => rfl

/-- **The collection policy.** In a run of the loops and of policy calls, no
event is stored whose kind is disabled when its loop handles it, if and only
if the calls so far have left enabled the kind of every payload that the
ingest loop has stored. -/
theorem policy_enforced_iff (acts : List CollectAct) (c : Collecting) :
    (∀ pre a, pre ++ [a] <+: acts →
      Enforced relay printable (run (Collecting.step relay printable) c pre) a) ↔
    ∀ pre emission payload, pre ++ [.ingest emission] <+: acts →
      (run (Collecting.step relay printable) c pre).payloads.head? = some payload →
        emission.stored = true → decision c payload.eventKind pre = true := by
  constructor
  · intro h pre emission payload hpre hpayload hstored
    have hobeys := (enforced_step_iff _).1 (h pre (.ingest emission) hpre)
    have henabled : (run (Collecting.step relay printable) c pre).policy.catalog.registryEnabledFor payload.eventKind =
        decision c payload.eventKind pre := enabled_run pre _
    rw [← henabled, ← Bool.not_eq_false]
    intro hdisabled
    have hsilent := hobeys payload hpayload hdisabled
    rw [hstored] at hsilent
    cases hsilent
  · intro h pre a hpre
    refine (enforced_step_iff a).2 ?_
    cases a with
    | ingest emission =>
      intro payload hpayload hdisabled
      rw [enabled_run] at hdisabled
      rw [← Bool.not_eq_true]
      intro hstored
      rw [h pre emission payload hpre hpayload hstored] at hdisabled
      cases hdisabled
    | setPolicy call => trivial
    | collected i events => trivial
    | ingested payloads => trivial
    | handle i emission => trivial

/-! ## While the logins are enabled -/

/-- The kinds the ingest loop may meet. -/
def loginKinds : List String := ["admin_ssh_login_success", "failed_login_burst", "privilege_escalation"]

theorem eventKind_mem (payload : Ingest.Payload) : payload.eventKind ∈ loginKinds := by
  cases payload <;> simp [Ingest.Payload.eventKind, loginKinds]

def LoginsEnabled (c : Collecting) : Prop :=
  ∀ kind ∈ loginKinds, c.policy.catalog.registryEnabledFor kind = true

/-- The step is no call that disables one of them. -/
def CollectAct.keepsLogins : CollectAct → Prop
  | .setPolicy call => call.kind ∈ loginKinds → call.enabled = true
  | _ => True

theorem decision_logins {acts : List CollectAct} (hacts : ∀ a ∈ acts, a.keepsLogins) (h : LoginsEnabled c)
    {kind : String} (hkind : kind ∈ loginKinds) : decision c kind acts = true := by
  unfold decision
  induction acts using List.reverseRecOn with
  | nil => exact h kind hkind
  | append_singleton acts a ih =>
    rw [List.foldl_concat, ih fun b hb => hacts b (List.mem_append_left _ hb)]
    have ha : a.keepsLogins := hacts a (by simp)
    cases a with
    | setPolicy call =>
      dsimp only
      split
      · next hcall => exact ha (hcall.2 ▸ hkind)
      · rfl
    | collected i events => rfl
    | ingested payloads => rfl
    | handle i emission => rfl
    | ingest emission => rfl

/-- As long as no call disables a login, the policy is enforced throughout. -/
theorem policy_enforced_of_logins {acts : List CollectAct} (hacts : ∀ a ∈ acts, a.keepsLogins)
    (h : LoginsEnabled c) {pre : List CollectAct} {a : CollectAct} (hpre : pre ++ [a] <+: acts) :
    Enforced relay printable (run (Collecting.step relay printable) c pre) a := by
  have hbefore : ∀ b ∈ pre, b.keepsLogins := fun b hb => hacts b (hpre.subset (List.mem_append_left _ hb))
  refine (enforced_step_iff a).2 ?_
  cases a with
  | ingest emission =>
    intro payload _ hdisabled
    rw [enabled_run, decision_logins hbefore h (eventKind_mem payload)] at hdisabled
    cases hdisabled
  | setPolicy call => trivial
  | collected i events => trivial
  | ingested payloads => trivial
  | handle i emission => trivial

end System

/-! ## Two logins -/

def logRead (text : String) : LogRead := ⟨7, text.toList.map fun c => UInt8.ofNat c.toNat, .fin 1000, Tailing.thisYear⟩

def twoLogins : LogRead := logRead (Tailing.loginLine ++ Tailing.loginLine)

theorem twoLogins_polled : ∃ s' first second,
    (ingestPoller Tailing.asciiHost Tailing.rootConfig).poll {} (some twoLogins) = (s', .ok [first, second]) ∧
      first.eventKind = "admin_ssh_login_success" ∧ second.eventKind = "admin_ssh_login_success" := by
  have hkinds : ((ingestPoll Tailing.asciiHost Tailing.rootConfig {} (some twoLogins)).2.toOption.map
      fun payloads => payloads.map Ingest.Payload.eventKind) =
        some ["admin_ssh_login_success", "admin_ssh_login_success"] := by decide +kernel
  rw [ingestPoller_poll]
  rcases hpoll : ingestPoll Tailing.asciiHost Tailing.rootConfig {} (some twoLogins) with ⟨s', e | payloads⟩
  · rw [hpoll] at hkinds
    cases hkinds
  · rw [hpoll] at hkinds
    have hmap : payloads.map Ingest.Payload.eventKind = ["admin_ssh_login_success", "admin_ssh_login_success"] :=
      Option.some.inj hkinds
    obtain ⟨first, second, rfl⟩ : ∃ first second, payloads = [first, second] :=
      List.length_eq_two.1 (List.length_map Ingest.Payload.eventKind ▸ congrArg List.length hmap)
    exact ⟨s', first, second, rfl, (List.cons.inj hmap).1, (List.cons.inj (List.cons.inj hmap).2).1⟩

/-- The storage is locked when the `i`-th event is emitted. -/
def lockedAt (i k : Nat) : Moment :=
  ⟨loginCatalog, if k = i then ⟨false, some (.osError "database is locked")⟩ else ⟨true, none⟩⟩

/-- If the second emission fails, nothing stands behind it. -/
theorem second_emission_fails :
    (∃ s' events, (hostLifecycleCollector ⟨"n", "n"⟩ (.fin 30)).poll { enabled := true }
        ⟨some (.fin 5), .fin 1000, .fin 1000⟩ = (s', .ok events) ∧
      NoneLost (collectorLoop false) (lockedAt 0) [] events
        (Poller.batches (hostLifecycleCollector ⟨"n", "n"⟩ (.fin 30)) s' [⟨none, .fin 1060, .fin 1060⟩])) ∧
    ∃ s' payloads, (ingestPoller Tailing.asciiHost Tailing.rootConfig).poll {} (some twoLogins) = (s', .ok payloads) ∧
      NoneLost ingestLoop (lockedAt 1) [] payloads
        (Poller.batches (ingestPoller Tailing.asciiHost Tailing.rootConfig) s' [some twoLogins]) := by
  constructor
  · refine ⟨_, _, rfl, ((failed_emission_iff Tailing.asciiHost Tailing.rootConfig false (lockedAt 0) [] 1).1 _ _
      (hostLifecycleCollector ⟨"n", "n"⟩ (.fin 30)) { enabled := true } _ ⟨some (.fin 5), .fin 1000, .fin 1000⟩ _
      rfl).2 ?_ _ rfl⟩
    intro i j hij event _ _ _ event' hevent'
    rw [List.getElem?_eq_none (by simp only [List.length_singleton]; omega)] at hevent'
    cases hevent'
  · obtain ⟨s', first, second, hpoll, -, -⟩ := twoLogins_polled
    refine ⟨s', _, hpoll, ((failed_emission_iff Tailing.asciiHost Tailing.rootConfig false (lockedAt 1) [] 1).2
      _ _ _ _ hpoll).2 ?_ _ rfl⟩
    intro i j hij event hevent _ hraised event' hevent'
    have hj : j < 2 := (List.getElem?_eq_some_iff.1 hevent').1
    obtain rfl : i = 0 := by omega
    cases hraised

/-- If the first emission fails, the second login is lost, though the log is
there to be read. -/
theorem second_login_lost :
    ∃ s' payloads, (ingestPoller Tailing.asciiHost Tailing.rootConfig).poll {} (some twoLogins) = (s', .ok payloads) ∧
      ¬ NoneLost ingestLoop (lockedAt 0) [] payloads
        (Poller.batches (ingestPoller Tailing.asciiHost Tailing.rootConfig) s' [some twoLogins]) := by
  obtain ⟨s', first, second, hpoll, -, hsecond⟩ := twoLogins_polled
  refine ⟨s', _, hpoll, fun hkept => ?_⟩
  have hwanted : Wanted (lockedAt 0 1).catalog (ingestLoop.kind second) := by
    change Wanted loginCatalog second.eventKind
    rw [hsecond]
    decide
  obtain ⟨batch, hbatch, hmem⟩ := returned_of_noneLost hkept (by decide : 0 < 1) rfl trivial rfl rfl hwanted
  have hgrows : Grows twoLogins.inode twoLogins.content.length [some twoLogins] := ⟨rfl, le_rfl, trivial⟩
  rw [ingestPoller_poll] at hpoll
  exact log_batch_lost hpoll hgrows (by simp) batch hbatch hmem

/-! ## A login while logins are disabled -/

def disableLogins : PolicyCall := ⟨"admin_ssh_login_success", false, ⟨true, none⟩, .fin 1000⟩

def policyNode : Collecting := ⟨⟨"n", "", loginCatalog, []⟩, fun _ => [], []⟩

/-- The ingest loop has a login stored after logins were disabled. -/
theorem disabled_login_stored :
    ∃ s' payloads, (ingestPoller Tailing.asciiHost Tailing.rootConfig).poll {} (some twoLogins) = (s', .ok payloads) ∧
      ¬ ∀ pre a, pre ++ [a] <+: [.setPolicy disableLogins, .ingested payloads, .ingest ⟨true, none⟩] →
        Enforced false ascii (run (Collecting.step false ascii) policyNode pre) a := by
  obtain ⟨s', first, second, hpoll, hfirst, -⟩ := twoLogins_polled
  refine ⟨s', _, hpoll, fun h => ?_⟩
  have hobeys := (enforced_step_iff _).1
    (h [.setPolicy disableLogins, .ingested [first, second]] (.ingest ⟨true, none⟩) (List.prefix_refl _))
  have hdisabled : (run (Collecting.step false ascii) policyNode
      [.setPolicy disableLogins, .ingested [first, second]]).policy.catalog.registryEnabledFor
        "admin_ssh_login_success" = false := rfl
  rw [← hfirst] at hdisabled
  cases hobeys first rfl hdisabled

end Mdrj.L4.Loops
