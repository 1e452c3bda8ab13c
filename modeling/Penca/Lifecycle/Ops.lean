import Penca.Lib.GreedyCut
import Penca.Lib.Runs
import Penca.Query.Resolve
import Penca.Store.State

/-!
# `Lifecycle.Ops` — commit, Persist, Snapshot and Purge

The operations of the write and lifecycle services on one table, as functions on the `Store`, each a
composition of its database statements.

- **Commit** takes the next `commit_seq_num` and the clock under the counter lock.
- **Persist** re-reads *every* hot row committed at or below its target (there is no lower bound), gates on
  the persist watermark, and writes one parent row and one chunked set of segments per log kind. The inserts
  are upserts on the derived uuids; a rewritten segment row keeps its bounds.
- **Snapshot** resolves the persisted entries of its `commit_micros` window over the previous snapshot
  and stamps `W_snap`, a maximum of whole-segment bounds. On a partitioned table it rewrites only the partitions
  the window touches and carries the others over as they are; otherwise it rewrites everything.
- **Purge** drops the hot rows at or below `W_snap` and records the fence.

`Op` and `step` package them as one system.
-/

namespace Penca

variable {R V : Type} [DecidableEq R]

/-! ## Commit -/

/-- A reading the database clock can give at this commit: it never runs backwards. -/
def Store.ClockAdmits (s : Store R V) (micros : Int) : Prop :=
  (0 < micros ∧ micros < i64Max) ∧ ∀ c ∈ s.commitTxLog, c.commitMicros ≤ micros

instance (s : Store R V) (micros : Int) : Decidable (s.ClockAdmits micros) :=
  inferInstanceAs (Decidable (_ ∧ _))

/-- Commit a transaction at clock reading `micros`. The unique index on `(branch_uuid, commit_micros)`
    refuses a second commit at one timestamp: the statement fails and rolls back. -/
def Store.commitTx (s : Store R V) (micros : Int) (rows : TxWrites R V) : Option (Store R V) :=
  if s.ClockAdmits micros then
    if s.commitTxLog.any (fun c => c.commitMicros = micros) then some s
    else some { s with
      commitSeqCounter := s.commitSeqCounter + 1
      commitTxLog := s.commitTxLog ++ [⟨s.commitSeqCounter, micros⟩]
      hot := s.hot ++ (CommittedTx.mk s.commitSeqCounter micros rows).entries }
  else none

/-! ## Persist -/

/-- How a table is partitioned. `label` is `partition_label` of a row's partition columns, `deleteLabel` that of the
    key columns of a delete-log row (a merge writes its tombstones with NULL keys), `derivable` says that the
    statistics of the prior segments give their labels; a segment holds rows of one label. -/
structure Partitioning (R V : Type) where
  label : V → String
  deleteLabel : LogEntry R V → String
  /-- `partition_subset_of_pk`. -/
  subsetOfPk : Bool
  derivable : List (R × V) → Bool

/-- What decides the chunk boundaries, the per-row cost and the segment size cap, and how the snapshots of the
    table are partitioned. -/
structure PersistConfig (R V : Type) where
  rowBytes : LogEntry R V → Int
  maxSegmentBytes : Int
  partition : Option (Partitioning R V)

def PersistConfig.unpartitioned (cfg : PersistConfig R V) : PersistConfig R V := { cfg with partition := none }

/-- Rows of one byte, a cap of a hundred and no partitions. -/
def oneByteRows : PersistConfig Nat Nat := ⟨fun _ => 1, 100, none⟩

/-- `chunk_persist_batch`: sort by `(commit_seq_num, write_seq_num)`, then cut as `chunk_row_ranges` does. -/
def chunkPersistBatch (cfg : PersistConfig R V) (batch : List (LogEntry R V)) :
    List (List (LogEntry R V)) :=
  (GreedyCut.cut cfg.rowBytes cfg.maxSegmentBytes
    (batch.insertionSort (fun a b => a.orderKey ≤ b.orderKey))).map Prod.fst

/-- `effective_target`. -/
def effectiveTarget (requestTargetMicros : Option Int) (step1Now : Int) : Int :=
  requestTargetMicros.getD step1Now

/-- `read_committed_upserts` / `read_committed_deletes` with the exclusive upper bound of
    `read_hot_rows`: the hot rows of one log committed at or before the target. -/
def Store.readCommitted (s : Store R V) (kind : LogKind) (effectiveTarget : Int) :
    List (LogEntry R V) :=
  s.hot.filter (fun e => e.kind = kind ∧ e.commitMicros < satSucc effectiveTarget)

/-- `compute_candidate_persisted_at_gated`: the greatest `commit_micros` and `commit_seq_num` of the
    batches, unless the former does not pass the last committed watermark. -/
def computeCandidatePersistedAtGated (lastPersistedAt : Option Int)
    (upserts deletes : List (LogEntry R V)) : Option (Int × Int) :=
  match ((upserts ++ deletes).map LogEntry.commitMicros).max?,
      ((upserts ++ deletes).map LogEntry.commitSeqNum).max? with
  | some candidate, some seq =>
      if lastPersistedAt.any (fun last => decide (candidate ≤ last)) then none else some (candidate, seq)
  | _, _ => none

/-- `insert_table_persist`: a new uncommitted parent row, or `DO UPDATE` of its watermarks. -/
def Store.insertTablePersist (s : Store R V) (uuid : PersistUuid) (persistedAt seq : Int) : Store R V :=
  { s with
    tablePersists :=
      if s.tablePersists.any (fun p => p.uuid = uuid) then
        s.tablePersists.map (fun p =>
          if p.uuid = uuid then { p with persistedAtMicros := persistedAt, commitSeqNum := seq } else p)
      else s.tablePersists ++ [⟨uuid, persistedAt, seq, false⟩] }

/-- The row `insert_table_persist_segment` inserts for a chunk: bounds taken from its rows. -/
def newSegment (uuid : SegmentUuid) (rows : List (LogEntry R V)) : PersistSegment where
  uuid := uuid
  minTxCommitMicros := (rows.map LogEntry.commitMicros).min?.getD 0
  maxTxCommitMicros := (rows.map LogEntry.commitMicros).max?.getD 0
  minCommitSeqNum := (rows.map LogEntry.commitSeqNum).min?.getD 0
  maxCommitSeqNum := (rows.map LogEntry.commitSeqNum).max?.getD 0
  rowCount := rows.length
  objectUri := .segment uuid
  slice := none
  committed := false

/-- `insert_table_persist_segment`: a new row, or `DO UPDATE` of the location and row count only. The
    bounds, the slice and the commit flag of an existing row stay as they are. -/
def Store.insertTablePersistSegment (s : Store R V) (uuid : SegmentUuid)
    (rows : List (LogEntry R V)) : Store R V :=
  { s with
    persistSegments :=
      if s.persistSegments.any (fun seg => seg.uuid = uuid) then
        s.persistSegments.map (fun seg =>
          if seg.uuid = uuid then { seg with objectUri := .segment uuid, rowCount := rows.length } else seg)
      else s.persistSegments ++ [newSegment uuid rows] }

/-- Write a file. -/
def Store.putObject (s : Store R V) (uri : ObjectUri) (rows : List (LogEntry R V)) : Store R V :=
  { s with objects := Function.update s.objects uri rows }

/-- `commit_table_persist_segment`. -/
def Store.commitTablePersistSegment (s : Store R V) (uuid : SegmentUuid) : Store R V :=
  { s with persistSegments :=
      s.persistSegments.map (fun seg => if seg.uuid = uuid then { seg with committed := true } else seg) }

/-- `DurableSegmentWriter::write_segment`: insert the row, write the file, commit the row. -/
def Store.writeSegment (s : Store R V) (uuid : SegmentUuid) (rows : List (LogEntry R V)) : Store R V :=
  ((s.insertTablePersistSegment uuid rows).putObject (.segment uuid) rows).commitTablePersistSegment uuid

/-- The segments of one parent: chunk `i` of the batch under chunk index `i`. -/
def segmentWrites (parent : PersistUuid) (chunks : List (List (LogEntry R V))) :
    List (SegmentUuid × List (LogEntry R V)) :=
  chunks.zipIdx.map (fun c => (⟨parent, c.2⟩, c.1))

/-- Write segments one after the other. -/
def Store.writeSegments (s : Store R V) (ws : List (SegmentUuid × List (LogEntry R V))) : Store R V :=
  ws.foldl (fun s w => s.writeSegment w.1 w.2) s

/-- Phase 1 of one log kind; an empty batch is skipped. -/
def Store.writeLogKind (cfg : PersistConfig R V) (s : Store R V) (parent : PersistUuid)
    (batch : List (LogEntry R V)) (persistedAt seq : Int) : Store R V :=
  if batch.isEmpty then s
  else (s.insertTablePersist parent persistedAt seq).writeSegments
    (segmentWrites parent (chunkPersistBatch cfg batch))

/-- `phase1_durable_writes`. -/
def Store.phase1DurableWrites (cfg : PersistConfig R V) (s : Store R V) (target : Int)
    (upserts deletes : List (LogEntry R V)) (persistedAt seq : Int) : Store R V :=
  (s.writeLogKind cfg ⟨target, .upsertLog⟩ upserts persistedAt seq).writeLogKind cfg
    ⟨target, .deleteLog⟩ deletes persistedAt seq

/-- `phase2_parent_flip`: commit the parent rows of this Persist. -/
def Store.phase2ParentFlip (s : Store R V) (uuids : List PersistUuid) : Store R V :=
  { s with tablePersists :=
      s.tablePersists.map (fun p => if p.uuid ∈ uuids then { p with committed := true } else p) }

/-- The parents a Persist writes: one per non-empty batch. -/
def persistParents (target : Int) (upserts deletes : List (LogEntry R V)) : List PersistUuid :=
  (if upserts.isEmpty then [] else [⟨target, .upsertLog⟩]) ++
    (if deletes.isEmpty then [] else [⟨target, .deleteLog⟩])

/-- The durable writes of a Persist that passed its gate. -/
def Store.writePersist (cfg : PersistConfig R V) (s : Store R V) (target : Int)
    (upserts deletes : List (LogEntry R V)) (persistedAt seq : Int) : Store R V :=
  (s.phase1DurableWrites cfg target upserts deletes persistedAt seq).phase2ParentFlip
    (persistParents target upserts deletes)

/-- `persist_locked`. -/
def Store.persistLocked (cfg : PersistConfig R V) (s : Store R V) (requestTargetMicros : Option Int)
    (step1Now : Int) : Store R V :=
  let target := effectiveTarget requestTargetMicros step1Now
  let upserts := s.readCommitted .upsertLog target
  let deletes := s.readCommitted .deleteLog target
  if target ≤ 0 then s
  else
    match computeCandidatePersistedAtGated s.persistWatermark upserts deletes with
    | none                    => s
    | some (persistedAt, seq) => s.writePersist cfg target upserts deletes persistedAt seq

/-! ## Snapshot -/

/-- The caller's `snapshotted_at_micros` is capped by the persist watermark. -/
def snapshotUpper (asOfMicros : Option Int) (persistedAt : Int) : Int :=
  match asOfMicros with
  | some t => min t persistedAt
  | none   => persistedAt

/-- `compute_snapshot_window`: the inclusive upper bound of the new snapshot and the snapshot it builds
    on; `none` when there is nothing to fold. -/
def Store.computeSnapshotWindow (s : Store R V) (asOfMicros : Option Int) :
    Option (Int × Option (TableSnapshot R V)) :=
  (s.persistWatermark.filter (fun p => 0 < p)).bind (fun persistedAt =>
    let upper := snapshotUpper asOfMicros persistedAt
    match pickSnapshot s.snapshots with
    | some prev => if upper ≤ prev.snapshottedAtMicros then none else some (upper, some prev)
    | none      => some (upper, none))

/-- The entries the snapshot folds: the segments that overlap `[from, to)`, then the per-row window. -/
def Store.snapshotDelta (s : Store R V) (fromMicros : Option Int) (toMicros : Int) :
    List (LogEntry R V) :=
  (s.windowEntries fromMicros (some toMicros) none).filter (fun e =>
    fromMicros.all (fun f => decide (f ≤ e.commitMicros)) && decide (e.commitMicros < toMicros))

/-- The rows of the delete segments of a window, as `read_persist_segments` reads them to attribute deletes: whole
    segments, without their ceilings and without the per-row window. -/
def Store.windowDeletes (s : Store R V) (fromMicros : Option Int) (toMicros : Int) : List (LogEntry R V) :=
  ((s.segmentsForWindow fromMicros (some toMicros) none).filter
    (fun seg => seg.uuid.parent.logKind = .deleteLog)).flatMap s.segmentRows

/-- `carry_forward_keys`: partitions are carried over if the table has some and the prior snapshot has segments
    whose labels can be derived. The layout keys the prior snapshot recorded are the table's. -/
def carryForwardKeys (partition : Option (Partitioning R V)) (prior : List (R × V)) : Option (Partitioning R V) :=
  partition.filter (fun p => !prior.isEmpty && p.derivable prior)

/-- The touched labels: those of the live delta, and those `delete_attributed_labels` reads off the delete log or,
    when it has no partition columns, `reverse_lookup_attributed_labels` finds the touched rows under. -/
def Partitioning.touched (p : Partitioning R V) (live prior : List (R × V)) (deletes : List (LogEntry R V)) :
    List String :=
  live.map (fun x => p.label x.2) ++
    if p.subsetOfPk then deletes.map p.deleteLabel
    else (prior.filter (fun x => x.1 ∈ live.map Prod.fst ++ deletes.map LogEntry.rowUuid)).map (fun x => p.label x.2)

/-- The prior rows a snapshot keeps: a touched partition loses those of the exclusion set, a carried one none. -/
def Partitioning.keep (p : Partitioning R V) (touched : List String) (exclusion : List R) (prior : List (R × V)) :
    List (R × V) :=
  prior.filter (fun x => p.label x.2 ∉ touched ∨ x.1 ∉ exclusion)

def Store.touchedLabels (s : Store R V) (p : Partitioning R V) (fromMicros : Option Int) (toMicros : Int)
    (prior : List (R × V)) : List String :=
  p.touched (composeResolvedAndExclusion [] (mergeResolved (s.snapshotDelta fromMicros toMicros))).1 prior
    (s.windowDeletes fromMicros toMicros)

/-- The rows of the snapshot of a window over the rows of the prior one: carry-forward or full rewrite. -/
def Store.snapshotRows (cfg : PersistConfig R V) (s : Store R V) (fromMicros : Option Int) (toMicros : Int)
    (prior : List (R × V)) : List (R × V) :=
  let delta := mergeResolved (s.snapshotDelta fromMicros toMicros)
  match carryForwardKeys cfg.partition prior with
  | none   => mergeRows [] delta prior
  | some p =>
      let (live, exclusion) := composeResolvedAndExclusion [] delta
      live ++ p.keep (s.touchedLabels p fromMicros toMicros prior) exclusion prior

/-- `W_snap` of the snapshot of the window ending at `upper` over the snapshot `prev`. -/
def Store.newSnapshotSeq (s : Store R V) (upper : Int) (prev : Option (TableSnapshot R V)) : Int :=
  computeSnapshotSeqWatermark (prev.map TableSnapshot.commitSeqNum)
    (s.maxPersistedSegmentSeqForWindow (prev.map (fun n => satSucc n.snapshottedAtMicros)) (some (satSucc upper))).toList

/-- The row `snapshot_locked` commits for this window. -/
def Store.newSnapshot (cfg : PersistConfig R V) (s : Store R V) (upper : Int) (prev : Option (TableSnapshot R V))
    (indexes : List SnapshotIndexDef) : TableSnapshot R V where
  snapshottedAtMicros := upper
  commitSeqNum := s.newSnapshotSeq upper prev
  rows := s.snapshotRows cfg (prev.map (fun n => satSucc n.snapshottedAtMicros)) (satSucc upper)
    ((prev.map TableSnapshot.rows).getD [])
  indexes := indexes

/-- `snapshot_locked`. -/
def Store.snapshotLocked (cfg : PersistConfig R V) (s : Store R V) (snapshottedAtMicros : Option Int)
    (indexes : List SnapshotIndexDef) : Store R V :=
  match s.computeSnapshotWindow snapshottedAtMicros with
  | none               => s
  | some (upper, prev) => { s with snapshots := s.snapshots ++ [s.newSnapshot cfg upper prev indexes] }

/-! ## Purge -/

/-- `purge_locked`: drop the hot rows at or below the new fence `Pu = W_snap` and commit the fence. -/
def Store.purgeLocked (s : Store R V) : Store R V :=
  match computePurgeWatermark s.snapshotSeqWatermark s.purgeSeqWatermark with
  | none    => s
  | some pu =>
      { s with hot := s.hot.filter (fun e => pu < e.commitSeqNum), purges := s.purges ++ [pu] }

/-! ## The system -/

/-- A complete operation. -/
inductive Op (R V : Type) where
  | commit (micros : Int) (rows : TxWrites R V)
  | persist (requestTargetMicros : Option Int) (step1Now : Int)
  | snapshot (snapshottedAtMicros : Option Int) (indexes : List SnapshotIndexDef)
  | purge

/-- One operation; `none` when the clock cannot give the commit's reading. -/
def step (cfg : PersistConfig R V) (s : Store R V) : Op R V → Option (Store R V)
  | .commit micros rows               => s.commitTx micros rows
  | .persist requestTarget step1Now   => some (s.persistLocked cfg requestTarget step1Now)
  | .snapshot snapshottedAt indexes   => some (s.snapshotLocked cfg snapshottedAt indexes)
  | .purge                            => some s.purgeLocked

/-- Where partitions are carried over and the labels of deletes come from the delete log: each prior row with an
    entry in the window lies in a partition the window touches. -/
def Store.ReplacedTouched (cfg : PersistConfig R V) (s : Store R V) (fromMicros : Option Int) (toMicros : Int)
    (prior : List (R × V)) : Prop :=
  ∀ p ∈ carryForwardKeys cfg.partition prior, p.subsetOfPk = true → ∀ x ∈ prior,
    (∃ e ∈ s.snapshotDelta fromMicros toMicros, e.rowUuid = x.1) →
      p.label x.2 ∈ s.touchedLabels p fromMicros toMicros prior

/-- The guard on a Snapshot: it rewrites the partitions of the rows it replaces. -/
def RewritesReplaced (cfg : PersistConfig R V) (s : Store R V) : Op R V → Prop
  | .snapshot snapshottedAt _ =>
      ∀ w ∈ s.computeSnapshotWindow snapshottedAt,
        s.ReplacedTouched cfg (w.2.map (fun n => satSucc n.snapshottedAtMicros)) (satSucc w.1)
          ((w.2.map TableSnapshot.rows).getD [])
  | _ => True

instance (cfg : PersistConfig R V) (s : Store R V) : ∀ op, Decidable (RewritesReplaced cfg s op)
  | .snapshot _ _ => inferInstanceAs (Decidable (∀ w ∈ _, ∀ p ∈ carryForwardKeys cfg.partition _, _ → ∀ x ∈ _, _ → _))
  | .persist _ _  => isTrue trivial
  | .commit _ _   => isTrue trivial
  | .purge        => isTrue trivial

theorem rewritesReplaced_unpartitioned (cfg : PersistConfig R V) (s : Store R V) (op : Op R V) :
    RewritesReplaced cfg.unpartitioned s op := by
  cases op with
  | snapshot snapshottedAt indexes =>
      intro w _ p hp
      cases hp
  | _ => trivial

/-- The abstract system: only a commit adds to the history. -/
def historyStep (H : History R V) : Op R V → History R V
  | .commit micros rows => H.commit micros rows
  | _                   => H

/-- The history a list of operations commits. -/
def historyOf (ops : List (Op R V)) : History R V := ops.foldl historyStep History.empty

end Penca
