import Penca.Log.Entry

/-!
# `Store.State` — the storage state of one table on one unforked branch

The hot tier (the two change logs, joined with `commit_tx_log`), the metadata rows of the cold tier
(`table_persist_metadata`, its segments, `table_snapshot_metadata`, `table_purge_metadata`) and the object
store the segment rows point into. Deterministic uuids are the tuples they are derived from.

## Contents
- **Metadata rows** and the `Store` record.
- **Segment reads.** A segment row names a file, or a slice of a merged file, and a
  `commit_seq_num` ceiling (`readSegment`).
- **Watermarks.** The persist, snapshot and purge watermarks the plans are made from.
- **Window fetch.** The segments whose `commit_micros` interval overlaps a window.
-/

namespace Penca

variable {R V : Type}

/-! ## Metadata rows -/

/-- `table_persist_uuid` of a Persist: derived from its effective target and the log kind. -/
structure PersistUuid where
  effectiveTarget : Int
  logKind : LogKind
  deriving DecidableEq, Repr

/-- `table_persist_segment_uuid`: derived from the parent and the chunk index. -/
structure SegmentUuid where
  parent : PersistUuid
  chunkIdx : Nat
  deriving DecidableEq, Repr

/-- The name of a cold file: the uri of a segment's own file is derived from the segment uuid, a
    compaction's merged file gets a new random name. -/
inductive ObjectUri where
  | segment (uuid : SegmentUuid)
  | merged (n : Nat)
  deriving DecidableEq, Repr

/-- A `table_persist_metadata` row; `committed` is `commit_micros IS NOT NULL`. -/
structure TablePersist where
  uuid : PersistUuid
  persistedAtMicros : Int
  commitSeqNum : Int
  committed : Bool
  deriving DecidableEq, Repr

/-- A `table_persist_segment_metadata` row. `slice` is `(offset, length)`, set by compaction. -/
structure PersistSegment where
  uuid : SegmentUuid
  minTxCommitMicros : Int
  maxTxCommitMicros : Int
  minCommitSeqNum : Int
  maxCommitSeqNum : Int
  rowCount : Nat
  objectUri : ObjectUri
  slice : Option (Nat × Nat)
  committed : Bool
  deriving DecidableEq, Repr

/-- The log the segment stores. -/
def PersistSegment.logKind (seg : PersistSegment) : LogKind := seg.uuid.parent.logKind

/-- A user index declared for a snapshot (`SnapshotIndexDef`). -/
structure SnapshotIndexDef where
  indexUuid : Nat
  keyColumns : List String
  deriving DecidableEq, Repr

/-- A committed snapshot: its two watermarks, its rows and its declared indexes. -/
structure TableSnapshot (R V : Type) where
  snapshottedAtMicros : Int
  commitSeqNum : Int
  rows : List (R × V)
  indexes : List SnapshotIndexDef
  deriving DecidableEq, Repr

/-- A `commit_tx_log` row. -/
structure CommitRow where
  commitSeqNum : Int
  commitMicros : Int
  deriving DecidableEq, Repr

/-- The storage state of the table. -/
structure Store (R V : Type) where
  /-- The branch's `commit_tx_log_seq_num` counter. -/
  commitSeqCounter : Int
  commitTxLog : List CommitRow
  /-- The rows of `upsert_log` and `delete_log`, joined with `commit_tx_log`. -/
  hot : List (LogEntry R V)
  tablePersists : List TablePersist
  persistSegments : List PersistSegment
  /-- The object store: file contents by uri. -/
  objects : ObjectUri → List (LogEntry R V)
  /-- How many merged files compaction has written. -/
  mergedFiles : Nat
  snapshots : List (TableSnapshot R V)
  /-- `last_purged_commit_seq_num` of the committed `table_purge_metadata` rows. -/
  purges : List Int

/-- A table just created. -/
def Store.init : Store R V where
  commitSeqCounter := 0
  commitTxLog := []
  hot := []
  tablePersists := []
  persistSegments := []
  objects := fun _ => []
  mergedFiles := 0
  snapshots := []
  purges := []

/-! ## Segment reads -/

/-- A whole file, or `length` rows from `offset`. -/
def readSlice {α : Type} (file : List α) : Option (Nat × Nat) → List α
  | none                  => file
  | some (offset, length) => (file.drop offset).take length

/-- `read_one_persist_segment`: the rows the segment row points at. -/
def Store.segmentRows (s : Store R V) (seg : PersistSegment) : List (LogEntry R V) :=
  readSlice (s.objects seg.objectUri) seg.slice

/-- A segment read by a query: clamped to the row's own ceiling (`apply_segment_seq_ceiling`). -/
def Store.readSegment (s : Store R V) (seg : PersistSegment) : List (LogEntry R V) :=
  (s.segmentRows seg).filter (fun e => e.commitSeqNum ≤ seg.maxCommitSeqNum)

/-! ## Watermarks -/

/-- `SNAPSHOT_SEQ_GENESIS`. -/
def snapshotSeqGenesis : Int := -1

/-- `latest_committed_table_persist_watermark`: the greatest committed `persisted_at_micros`. -/
def Store.persistWatermark (s : Store R V) : Option Int :=
  ((s.tablePersists.filter TablePersist.committed).map TablePersist.persistedAtMicros).max?

/-- `latest_committed_table_snapshot_seq_watermark`: the greatest `W_snap`. -/
def Store.snapshotSeqWatermark (s : Store R V) : Option Int :=
  (s.snapshots.map TableSnapshot.commitSeqNum).max?

/-- `latest_committed_table_purge_seq_watermark`: the greatest `Pu`. -/
def Store.purgeSeqWatermark (s : Store R V) : Option Int := s.purges.max?

/-- `compute_snapshot_seq_watermark`. -/
def computeSnapshotSeqWatermark (prevSnapshotSeq : Option Int) (includedSegmentMaxSeqs : List Int) :
    Int :=
  max (prevSnapshotSeq.getD snapshotSeqGenesis)
    (includedSegmentMaxSeqs.max?.getD snapshotSeqGenesis)

/-- `compute_purge_watermark`: the candidate, if it strictly advances. -/
def computePurgeWatermark (candidate lastPurged : Option Int) : Option Int :=
  candidate.bind (fun c => match lastPurged with
    | some lp => if c ≤ lp then none else some c
    | none    => some c)

/-- `branch_min_watermark`: the minimum, `none` if a table has none or there is no table. -/
def branchMinWatermark : Option Int → List (Option Int) → Option Int
  | acc, []             => acc
  | _,   none :: _      => none
  | acc, some v :: rest => branchMinWatermark (some (acc.elim v (fun a => min a v))) rest

/-- The minimum is at or below every watermark, and there is one for every table. -/
theorem le_of_branchMinWatermark {acc : Option Int} {ws : List (Option Int)} {m : Int}
    (h : branchMinWatermark acc ws = some m) :
    (∀ a, acc = some a → m ≤ a) ∧ ∀ w ∈ ws, ∃ v, w = some v ∧ m ≤ v := by
  induction ws generalizing acc with
  | nil =>
      have hacc : acc = some m := h
      rw [hacc]
      exact ⟨by rintro a ⟨⟩; exact le_refl m, by simp⟩
  | cons w ws ih =>
      cases w with
      | none => cases h
      | some v =>
          obtain ⟨hacc, hall⟩ := ih h
          have hle := hacc _ rfl
          constructor
          · rintro a rfl
            exact hle.trans (min_le_left _ _)
          · intro w hw
            rcases List.mem_cons.mp hw with rfl | hw
            · refine ⟨v, rfl, hle.trans ?_⟩
              cases acc with
              | none => exact le_refl v
              | some a => exact min_le_right a v
            · exact hall w hw

/-- The snapshot a query picks: newest by `snapshotted_at_micros`, then by `commit_seq_num`. -/
def pickSnapshot (snapshots : List (TableSnapshot R V)) : Option (TableSnapshot R V) :=
  Newest.newest (fun n => toLex (n.snapshottedAtMicros, n.commitSeqNum)) snapshots

/-! ## Window fetch -/

/-- `persist_segment_overlap_clause`, with the bounds `read_persist_segments_for_window` derives from
    the half-open window `[from, to)`. -/
def overlapsWindow (fromMicros toMicros commitSeqUpper : Option Int) (seg : PersistSegment) : Bool :=
  fromMicros.all (fun f => decide (seg.maxTxCommitMicros > satPred f)) &&
    toMicros.all (fun t => decide (seg.minTxCommitMicros ≤ satPred t)) &&
      commitSeqUpper.all (fun n => decide (seg.minCommitSeqNum ≤ n))

/-- `read_persist_segments_for_window`: the committed, non-empty segments that overlap the window and
    whose parent row exists, ordered by `(min_commit_seq_num, chunk_idx)`. -/
def Store.segmentsForWindow (s : Store R V) (fromMicros toMicros commitSeqUpper : Option Int) :
    List PersistSegment :=
  (s.persistSegments.filter (fun seg =>
    seg.committed && s.tablePersists.any (fun p => p.uuid = seg.uuid.parent) &&
      overlapsWindow fromMicros toMicros commitSeqUpper seg && seg.rowCount != 0)).insertionSort
    (fun a b => toLex (a.minCommitSeqNum, a.uuid.chunkIdx) ≤ toLex (b.minCommitSeqNum, b.uuid.chunkIdx))

/-- The entries a query reads from the segments of a window. -/
def Store.windowEntries (s : Store R V) (fromMicros toMicros commitSeqUpper : Option Int) :
    List (LogEntry R V) :=
  (s.segmentsForWindow fromMicros toMicros commitSeqUpper).flatMap s.readSegment

/-- `max_persisted_segment_seq_for_window`: the greatest `max_commit_seq_num` over the committed
    segments that overlap the window. -/
def Store.maxPersistedSegmentSeqForWindow (s : Store R V) (fromMicros toMicros : Option Int) :
    Option Int :=
  ((s.persistSegments.filter (fun seg =>
    seg.committed && s.tablePersists.any (fun p => p.uuid = seg.uuid.parent) &&
      overlapsWindow fromMicros toMicros none seg)).map PersistSegment.maxCommitSeqNum).max?

theorem Store.mem_segmentsForWindow {s : Store R V} {fromMicros toMicros commitSeqUpper : Option Int}
    {seg : PersistSegment} :
    seg ∈ s.segmentsForWindow fromMicros toMicros commitSeqUpper ↔
      seg ∈ s.persistSegments ∧ seg.committed = true ∧ (∃ p ∈ s.tablePersists, p.uuid = seg.uuid.parent) ∧
        overlapsWindow fromMicros toMicros commitSeqUpper seg = true ∧ seg.rowCount ≠ 0 := by
  simp only [segmentsForWindow, List.mem_insertionSort, List.mem_filter, Bool.and_eq_true,
    List.any_eq_true, decide_eq_true_eq, bne_iff_ne, and_assoc]

theorem Store.mem_windowEntries {s : Store R V} {fromMicros toMicros commitSeqUpper : Option Int}
    {e : LogEntry R V} :
    e ∈ s.windowEntries fromMicros toMicros commitSeqUpper ↔
      ∃ seg ∈ s.segmentsForWindow fromMicros toMicros commitSeqUpper, e ∈ s.readSegment seg :=
  List.mem_flatMap

end Penca
