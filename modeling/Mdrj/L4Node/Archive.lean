import Mdrj.L4Node.Retention

/-!
# The archive file

With `retention.archive_path` set, a pass appends what it pruned to a file:
a header, then one record for each row. The rows are pruned first, in a
transaction of their own, so that every step of the writing that raises finds
them gone.

Results:
* `archive_before_delete_iff`: a pass that raises has kept every event exactly
  if there was nothing to prune or no step of the writing raises.
* `deleted_archived`: a pass that returns has every deleted row in the file.
-/
namespace Mdrj.L4.Archive
open Mdrj.Core Mdrj.L1 Mdrj.L3

/-- A line of the file, by what is dumped.
mirrors mdrj/node.py:1926-1935 -/
inductive Line where
  | header (checkpointRound : Int) (merkleRoot membersSnapshotHash : String) (exportedAt : Flt)
  | record (row : EventRow)

/-- Where the writing may raise; closing the file flushes it. -/
inductive Point where
  | mkdir
  | openFile
  | header
  | record (index : Nat)
  | close
  deriving DecidableEq, Repr

/-- The steps for a chunk, each with the line it writes. -/
def chunk (records : List EventRow) (confirmedRound : Int) (checkpoint : CheckpointRow) (exportedAt : Flt) :
    List (Point × Option Line) :=
  [(.mkdir, none), (.openFile, none),
    (.header, some (.header confirmedRound checkpoint.merkleRoot checkpoint.membersSnapshotHash exportedAt))] ++
  records.zipIdx.map (fun p => (.record p.2, some (.record p.1))) ++
  [(.close, none)]

/-- The steps are done in order, up to the first that raises; the lines
written before it stay. -/
def perform (raises : Point → Option PyError) :
    List Line → List (Point × Option Line) → List Line × Except PyError Unit
  | file, [] => (file, .ok ())
  | file, (point, line) :: steps =>
    match raises point with
    | some err => (file, .error err)
    | none => perform raises (file ++ line.toList) steps

/-- mirrors mdrj/node.py:1920-1935 -/
def writeArchiveChunk (raises : Point → Option PyError) (file : List Line) (records : List EventRow)
    (confirmedRound : Int) (checkpoint : CheckpointRow) (exportedAt : Flt) : List Line × Except PyError Unit :=
  perform raises file (chunk records confirmedRound checkpoint exportedAt)

/-- mirrors mdrj/node.py:1913-1918 -/
structure Report where
  status : String
  pruned : Nat
  checkpointRound : Option Int := none

/-- What a pass leaves: the node and what the call gave, and the file. -/
structure Pass where
  call : Call Report
  file : List Line

/-- mirrors mdrj/node.py:1897-1918 with the archive -/
def runRetentionOnce (raises : Point → Option PyError) (n : Node) (file : List Line) (now exportedAt : Flt) :
    Pass :=
  let cfg := n.config.retention
  if !cfg.enabled then ⟨⟨n, .ok ⟨"disabled", 0, none⟩⟩, file⟩
  else
    match n.storage.latestConfirmedCheckpoint with
    | none => ⟨⟨n, .ok ⟨"no_confirmed_checkpoint", 0, none⟩⟩, file⟩
    | some (confirmedRound, checkpoint) =>
      match Node.maxAgeSec cfg with
      | none => ⟨⟨n, .error .overflowError⟩, file⟩
      | some maxAge =>
        let (storage, pruned) :=
          n.storage.pruneUnderCheckpoint confirmedRound maxAge cfg.keepClassA now
        let n := { n with storage := storage }
        if cfg.archivePath.getD "" ≠ "" ∧ pruned ≠ [] then
          match writeArchiveChunk raises file pruned confirmedRound checkpoint exportedAt with
          | (file, .error err) => ⟨⟨n, .error err⟩, file⟩
          | (file, .ok ()) => ⟨⟨n, .ok ⟨"ok", pruned.length, some confirmedRound⟩⟩, file⟩
        else ⟨⟨n, .ok ⟨"ok", pruned.length, some confirmedRound⟩⟩, file⟩

/-! ## The writing -/

section Writing
variable {raises : Point → Option PyError}

/-- The writing raises exactly if one of its steps would. -/
theorem perform_ok_iff {steps : List (Point × Option Line)} : ∀ {file : List Line},
    (perform raises file steps).2 = .ok () ↔ ∀ step ∈ steps, raises step.1 = none := by
  induction steps with
  | nil => simp [perform]
  | cons step steps ih =>
    intro file
    obtain ⟨point, line⟩ := step
    unfold perform
    rw [List.forall_mem_cons]
    cases hpoint : raises point with
    | some err => simp
    | none => simp [ih]

/-- A writing that does not raise appends every line. -/
theorem perform_file {steps : List (Point × Option Line)} : ∀ {file : List Line},
    (perform raises file steps).2 = .ok () →
      (perform raises file steps).1 = file ++ steps.filterMap Prod.snd := by
  induction steps with
  | nil => intro file _; simp [perform]
  | cons step steps ih =>
    intro file h
    obtain ⟨point, line⟩ := step
    unfold perform at h ⊢
    cases hpoint : raises point with
    | some err => rw [hpoint] at h; cases h
    | none =>
      rw [hpoint] at h
      rw [ih h, List.append_assoc]
      cases line <;> rfl

/-- No step of a chunk with so many records raises. -/
structure Quiet (raises : Point → Option PyError) (count : Nat) : Prop where
  mkdir : raises .mkdir = none
  openFile : raises .openFile = none
  header : raises .header = none
  record : ∀ index < count, raises (.record index) = none
  close : raises .close = none

theorem quiet_iff {records : List EventRow} {confirmedRound : Int} {checkpoint : CheckpointRow}
    {exportedAt : Flt} : (∀ step ∈ chunk records confirmedRound checkpoint exportedAt, raises step.1 = none) ↔
      Quiet raises records.length := by
  have hrecords : (∀ step ∈ records.zipIdx.map (fun p : EventRow × Nat =>
      (Point.record p.2, some (Line.record p.1))), raises step.1 = none) ↔
      ∀ index < records.length, raises (.record index) = none := by
    rw [List.forall_mem_map]
    constructor
    · intro h index hindex
      exact h (records.get ⟨index, hindex⟩, index) (List.mk_mem_zipIdx_iff_getElem?.2 (List.getElem?_eq_getElem hindex))
    · intro h p hp
      exact h p.2 (by simpa using List.snd_lt_of_mem_zipIdx hp)
  unfold chunk
  rw [List.forall_mem_append, List.forall_mem_append, hrecords]
  constructor
  · intro h
    obtain ⟨⟨hfirst, hall⟩, hclose⟩ := h
    exact ⟨hfirst _ (.head _), hfirst _ (.tail _ (.head _)), hfirst _ (.tail _ (.tail _ (.head _))), hall,
      hclose _ (.head _)⟩
  · intro h
    refine ⟨⟨?_, h.record⟩, ?_⟩
    · simp [h.mkdir, h.openFile, h.header]
    · simp [h.close]

end Writing

/-! ## The pass -/

section Pass
variable {raises : Point → Option PyError} {n : Node} {file : List Line} {now exportedAt : Flt}

/-- The file is not a table: the node is that of the pass without it. -/
theorem runRetentionOnce_node :
    (runRetentionOnce raises n file now exportedAt).call.node = (n.runRetentionOnce now).node := by
  unfold runRetentionOnce Node.runRetentionOnce
  dsimp only
  cases n.config.retention.enabled with
  | false => rfl
  | true =>
    cases n.storage.latestConfirmedCheckpoint with
    | none => rfl
    | some p =>
      dsimp only
      cases Node.maxAgeSec n.config.retention with
      | none => rfl
      | some maxAge =>
        dsimp only
        rw [Bool.not_true, if_neg Bool.false_ne_true, if_neg Bool.false_ne_true]
        split
        · split <;> rfl
        · rfl

theorem mem_events {row : EventRow} (hrow : row ∈ n.storage.events) :
    row ∈ (runRetentionOnce raises n file now exportedAt).call.node.storage.events ↔
      n.prunes now row = false := by
  rw [runRetentionOnce_node, runRetentionOnce_events, List.mem_filter]
  simp [hrow]

/-- A row is deleted only under a confirmed checkpoint. -/
theorem pruning_of_prunes {row : EventRow} (h : n.prunes now row = true) :
    ∃ confirmedRound checkpoint maxAge, n.config.retention.enabled = true ∧
      n.storage.latestConfirmedCheckpoint = some (confirmedRound, checkpoint) ∧
      Node.maxAgeSec n.config.retention = some maxAge ∧
      n.prunes now = DAGStorage.prunable confirmedRound (now.sub maxAge) n.config.retention.keepClassA := by
  unfold Node.prunes at h ⊢
  split at h
  · rename_i confirmedRound checkpoint maxAge henabled hlatest hage
    exact ⟨confirmedRound, checkpoint, maxAge, henabled, hlatest, hage, rfl⟩
  · cases h

/-- Where the pass deletes a row, it writes what it has pruned. -/
theorem runRetentionOnce_writes (raises : Point → Option PyError) (file : List Line) (exportedAt : Flt)
    {row : EventRow} (hrow : row ∈ n.storage.events)
    (hprunes : n.prunes now row = true) (hpath : n.config.retention.archivePath.getD "" ≠ "") :
    ∃ pruned confirmedRound checkpoint, pruned.Perm (n.storage.events.filter (n.prunes now)) ∧
      (runRetentionOnce raises n file now exportedAt).file =
        (writeArchiveChunk raises file pruned confirmedRound checkpoint exportedAt).1 ∧
      ((∃ report, (runRetentionOnce raises n file now exportedAt).call.result = .ok report) ↔
        (writeArchiveChunk raises file pruned confirmedRound checkpoint exportedAt).2 = .ok ()) := by
  obtain ⟨confirmedRound, checkpoint, maxAge, henabled, hlatest, hage, hfilter⟩ := pruning_of_prunes hprunes
  obtain ⟨pruned, hpruned⟩ : ∃ pruned, pruned =
    (n.storage.pruneUnderCheckpoint confirmedRound maxAge n.config.retention.keepClassA now).2 := ⟨_, rfl⟩
  have hperm : pruned.Perm (n.storage.events.filter (n.prunes now)) := by
    rw [hpruned, hfilter]
    exact List.perm_insertionSort _ _
  have hne : pruned ≠ [] := List.ne_nil_of_mem (hperm.mem_iff.2 (List.mem_filter.2 ⟨hrow, hprunes⟩))
  refine ⟨pruned, confirmedRound, checkpoint, hperm, ?_⟩
  unfold runRetentionOnce
  dsimp only
  rw [henabled, hlatest, hage]
  dsimp only
  rw [Bool.not_true, ← hpruned, if_neg Bool.false_ne_true, if_pos ⟨hpath, hne⟩]
  split
  · rename_i file' err hwrite
    rw [hwrite]
    simp
  · rename_i file' hwrite
    rw [hwrite]
    simp

/-- **Archive before delete.** A pass that raises has kept every event exactly
if there was nothing to prune, or no step of the writing raises. -/
theorem archive_before_delete_iff (raises : Point → Option PyError) (n : Node) (file : List Line)
    (now exportedAt : Flt) {path : String}
    (hset : n.config.retention.archivePath = some path) (hpath : path ≠ "") :
    (∀ err, (runRetentionOnce raises n file now exportedAt).call.result = .error err →
      ∀ row ∈ n.storage.events,
        row ∈ (runRetentionOnce raises n file now exportedAt).call.node.storage.events) ↔
    (∀ row ∈ n.storage.events, n.prunes now row = false) ∨
      Quiet raises (n.storage.events.countP (n.prunes now)) := by
  have hgetD : n.config.retention.archivePath.getD "" ≠ "" := by rw [hset]; exact hpath
  by_cases hnone : ∀ row ∈ n.storage.events, n.prunes now row = false
  · refine ⟨fun _ => .inl hnone, fun _ err _ row hrow => ?_⟩
    exact (mem_events hrow).2 (hnone row hrow)
  · rw [or_iff_right hnone]
    push Not at hnone
    obtain ⟨row, hrow, hprunes⟩ := hnone
    rw [ne_eq, Bool.not_eq_false] at hprunes
    obtain ⟨pruned, confirmedRound, checkpoint, hperm, -, hok⟩ :=
      runRetentionOnce_writes raises file exportedAt hrow hprunes hgetD
    have hquiet : (writeArchiveChunk raises file pruned confirmedRound checkpoint exportedAt).2 = .ok () ↔
        Quiet raises (n.storage.events.countP (n.prunes now)) := by
      unfold writeArchiveChunk
      rw [perform_ok_iff, quiet_iff, hperm.length_eq, List.countP_eq_length_filter]
    rw [← hquiet, ← hok]
    constructor
    · intro h
      -- the deleted row is not there, so the call has not raised
      cases hresult : (runRetentionOnce raises n file now exportedAt).call.result with
      | ok report => exact ⟨report, rfl⟩
      | error err =>
        have hstays := (mem_events hrow).1 (h err hresult row hrow)
        rw [hprunes] at hstays
        cases hstays
    · intro h err hresult
      obtain ⟨report, hreport⟩ := h
      rw [hresult] at hreport
      cases hreport

/-- A node whose one event a confirmed checkpoint covers, with an archive. -/
def archiving : Node :=
  { anchored with config := { anchored.config with
    retention := { enabled := true, maxAgeDays := 0, archivePath := some "archive/events.jsonl" } } }

/-- The disk is full when the first record is written. -/
def fullDisk : Point → Option PyError
  | .record _ => some (.osError "No space left on device")
  | _ => none

theorem archive_before_delete_young : archiving.config.retention.archivePath = some "archive/events.jsonl" ∧
    ∀ err, (runRetentionOnce fullDisk archiving [] (.fin 0) (.fin 0)).call.result = .error err →
      ∀ row ∈ archiving.storage.events,
        row ∈ (runRetentionOnce fullDisk archiving [] (.fin 0) (.fin 0)).call.node.storage.events := by
  refine ⟨rfl, (archive_before_delete_iff fullDisk archiving [] (.fin 0) (.fin 0) rfl (by decide)).2
    (.inl fun row hrow => ?_)⟩
  obtain rfl := List.mem_singleton.1 hrow
  decide +kernel

/-- The event is pruned, and the writing of its record raises. -/
theorem full_disk_loses_event : ¬ ∀ err,
    (runRetentionOnce fullDisk archiving [] (.fin 1) (.fin 1)).call.result = .error err →
      ∀ row ∈ archiving.storage.events,
        row ∈ (runRetentionOnce fullDisk archiving [] (.fin 1) (.fin 1)).call.node.storage.events := by
  intro h
  have hrow : ⟨{ Event.linked "a0" "a" [] with roundReceived := some 0 }, .fin 0⟩ ∈ archiving.storage.events :=
    List.mem_singleton.2 rfl
  have hprunes : archiving.prunes (.fin 1)
      ⟨{ Event.linked "a0" "a" [] with roundReceived := some 0 }, .fin 0⟩ = true := by decide +kernel
  obtain ⟨pruned, confirmedRound, checkpoint, hperm, -, hok⟩ :=
    runRetentionOnce_writes fullDisk [] (.fin 1) hrow hprunes (by decide)
  cases hresult : (runRetentionOnce fullDisk archiving [] (.fin 1) (.fin 1)).call.result with
  | ok report =>
    have hnone := perform_ok_iff.1 (hok.1 ⟨report, hresult⟩)
    have hone : 0 < pruned.length := hperm.length_eq ▸ by decide +kernel
    cases (quiet_iff.1 hnone).record 0 hone
  | error err =>
    have hstays := (mem_events hrow).1 (h err hresult _ hrow)
    rw [hprunes] at hstays
    cases hstays

/-- A pass that returns has a record of every deleted row in the file. -/
theorem deleted_archived {report : Report} (hpath : n.config.retention.archivePath.getD "" ≠ "")
    (h : (runRetentionOnce raises n file now exportedAt).call.result = .ok report) {row : EventRow}
    (hrow : row ∈ n.storage.events)
    (hgone : row ∉ (runRetentionOnce raises n file now exportedAt).call.node.storage.events) :
    .record row ∈ (runRetentionOnce raises n file now exportedAt).file := by
  have hprunes : n.prunes now row = true := by
    rw [mem_events hrow, Bool.not_eq_false] at hgone
    exact hgone
  obtain ⟨pruned, confirmedRound, checkpoint, hperm, hfile, hok⟩ :=
    runRetentionOnce_writes raises file exportedAt hrow hprunes hpath
  have hmem : row ∈ pruned := hperm.mem_iff.2 (List.mem_filter.2 ⟨hrow, hprunes⟩)
  obtain ⟨index, hindex⟩ := List.mem_iff_getElem?.1 hmem
  rw [hfile]
  unfold writeArchiveChunk at hok ⊢
  rw [perform_file (hok.1 ⟨report, h⟩), List.mem_append, List.mem_filterMap]
  refine .inr ⟨(.record index, some (.record row)), ?_, rfl⟩
  unfold chunk
  refine List.mem_append_left _ (List.mem_append_right _ (List.mem_map.2 ⟨(row, index), ?_, rfl⟩))
  exact List.mk_mem_zipIdx_iff_getElem?.2 hindex

end Pass
end Mdrj.L4.Archive
