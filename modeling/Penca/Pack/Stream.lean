import Penca.Pack.RowCost

/-!
# `Pack.Stream` — a streamed partition and a whole one give the same files

`push_partition` takes a partition at once. `push_partition_chunk` takes it in sub-batches: it keeps the part that
may still grow, writes what is sealed, and flushes the shared buffer as soon as the partition is known not to fit.
This is the packer with everything it writes: files with their uri, segment rows with `chunk_idx`, offset, length,
size, statistics and content hash.

## Contents
- **The packer.** `flush`, `singlePartitionFile`, `pushPartition`, `pushPartitionChunk`, `finishPartition`.
- **Streaming.** `streamed` describes the packer by the rows it has taken; `pushPartitionChunk_streamed` is the step,
  `finishPartition_streamed` the end.
-/

namespace Penca.Files

open Chunker

variable {α T U S H : Type}

/-- What the packer is given and calls: the cap, the cost of a row, and the functions behind a segment row. -/
structure PackerConfig (α U S H : Type) where
  maxSegmentBytes : Int
  rowBytes        : α → Int
  /-- `table_snapshot_segment_uuid` of the snapshot. -/
  segmentUuid     : Nat → U
  /-- `uri_for`. -/
  uriFor          : U → String
  /-- `compute_segment_statistics`. -/
  statistics      : List α → S
  /-- `segment_content_hash`. -/
  contentHash     : List α → H

/-- `SnapshotSegmentRowSpec`. -/
structure SnapshotSegmentRowSpec (T U S H : Type) where
  segUuid        : U
  chunkIdx       : Nat
  partitionValue : Option T
  offset         : Nat
  length         : Nat
  sizeBytes      : Int
  statistics     : S
  contentHash    : H

/-- `SnapshotFileStep`. -/
structure SnapshotFileStep (α T U S H : Type) where
  uri         : String
  fileBatch   : List α
  segmentRows : List (SnapshotSegmentRowSpec T U S H)

/-- `OpenPartition`. -/
structure OpenPartition (α T : Type) where
  label      : Option T
  acc        : List α
  emittedAny : Bool

/-- `SegmentPacker`. -/
structure SegmentPacker (α T : Type) where
  buffered      : List (Option T × List α)
  bufferedBytes : Int
  chunkIdx      : Nat
  openPartition : Option (OpenPartition α T)

namespace SegmentPacker

variable (cfg : PackerConfig α U S H)

/-- `batch_in_memory_bytes`, over rows with a cost. -/
def batchInMemoryBytes (rows : List α) : Int := GreedyCut.total cfg.rowBytes rows

/-- The segment rows of a flushed buffer: `chunk_idx` and `offset` run along. -/
def segmentRowsFrom (chunkIdx offset : Nat) :
    List (Option T × List α) → List (SnapshotSegmentRowSpec T U S H)
  | []                      => []
  | (label, batch) :: parts =>
      { segUuid        := cfg.segmentUuid chunkIdx
        chunkIdx       := chunkIdx
        partitionValue := label
        offset         := offset
        length         := batch.length
        sizeBytes      := batchInMemoryBytes cfg batch
        statistics     := cfg.statistics batch
        contentHash    := cfg.contentHash batch } ::
        segmentRowsFrom (chunkIdx + 1) (offset + batch.length) parts

/-- `flush`. -/
def flush (p : SegmentPacker α T) : SegmentPacker α T × List (SnapshotFileStep α T U S H) :=
  if p.buffered.isEmpty then (p, [])
  else
    ({ p with buffered := [], bufferedBytes := 0, chunkIdx := p.chunkIdx + p.buffered.length },
      [{ uri         := cfg.uriFor (cfg.segmentUuid p.chunkIdx)
         fileBatch   := p.buffered.flatMap Prod.snd
         segmentRows := segmentRowsFrom cfg p.chunkIdx 0 p.buffered }])

/-- `single_partition_file`. -/
def singlePartitionFile (chunkIdx : Nat) (label : Option T) (chunk : List α × Int) : SnapshotFileStep α T U S H where
  uri         := cfg.uriFor (cfg.segmentUuid chunkIdx)
  fileBatch   := chunk.1
  segmentRows :=
    [{ segUuid        := cfg.segmentUuid chunkIdx
       chunkIdx       := chunkIdx
       partitionValue := label
       offset         := 0
       length         := chunk.1.length
       sizeBytes      := chunk.2
       statistics     := cfg.statistics chunk.1
       contentHash    := cfg.contentHash chunk.1 }]

/-- The loops over `single_partition_file`: each file takes the next `chunk_idx`. -/
def singlePartitionFiles (p : SegmentPacker α T) (label : Option T) :
    List (List α × Int) → SegmentPacker α T × List (SnapshotFileStep α T U S H)
  | []              => (p, [])
  | chunk :: chunks =>
      let rest := singlePartitionFiles { p with chunkIdx := p.chunkIdx + 1 } label chunks
      (rest.1, singlePartitionFile cfg p.chunkIdx label chunk :: rest.2)

/-- The slices of a batch at some ranges, with the costs the ranges report. -/
def slices (rows : List α) (ranges : List ChunkRange) : List (List α × Int) := ranges.map (chunkOf rows)

/-- `push_partition`. -/
def pushPartition (p : SegmentPacker α T) (label : Option T) (clustered : List α) :
    SegmentPacker α T × List (SnapshotFileStep α T U S H) :=
  if clustered.isEmpty then (p, [])
  else if batchInMemoryBytes cfg clustered > cfg.maxSegmentBytes then
    let flushed := p.flush cfg
    let files := flushed.1.singlePartitionFiles cfg label
      (slices clustered (chunkRanges cfg.rowBytes cfg.maxSegmentBytes clustered))
    (files.1, flushed.2 ++ files.2)
  else
    let room := if p.buffered ≠ [] ∧ p.bufferedBytes + batchInMemoryBytes cfg clustered > cfg.maxSegmentBytes
      then p.flush cfg else (p, [])
    ({ room.1 with
        buffered := room.1.buffered ++ [(label, clustered)]
        bufferedBytes := room.1.bufferedBytes + batchInMemoryBytes cfg clustered }, room.2)

/-- The open partition, a fresh one under `label` if there is none. -/
def opened (p : SegmentPacker α T) (label : Option T) : OpenPartition α T :=
  p.openPartition.getD ⟨label, [], false⟩

/-- `push_partition_chunk`: every range but the last is sealed, the last may still grow. -/
def pushPartitionChunk (p : SegmentPacker α T) (label : Option T) (batch : List α) :
    SegmentPacker α T × List (SnapshotFileStep α T U S H) :=
  if batch.isEmpty then (p, [])
  else
    let part := p.opened label
    let combined := part.acc ++ batch
    let ranges := chunkRanges cfg.rowBytes cfg.maxSegmentBytes combined
    if ranges.length ≤ 1 then ({ p with openPartition := some { part with acc := combined } }, [])
    else
      let flushed := if part.emittedAny then (p, []) else p.flush cfg
      let files := flushed.1.singlePartitionFiles cfg label (slices combined ranges.dropLast)
      let tail := (ranges.getLast?.map (fun last => (chunkOf combined last).1)).getD []
      ({ files.1 with openPartition := some ⟨part.label, tail, true⟩ }, flushed.2 ++ files.2)

/-- `finish_partition`. -/
def finishPartition (p : SegmentPacker α T) : SegmentPacker α T × List (SnapshotFileStep α T U S H) :=
  match p.openPartition with
  | none => (p, [])
  | some part =>
      let closed := { p with openPartition := none }
      if part.acc.isEmpty then (closed, [])
      else if part.emittedAny then
        closed.singlePartitionFiles cfg part.label
          (slices part.acc (chunkRanges cfg.rowBytes cfg.maxSegmentBytes part.acc))
      else closed.pushPartition cfg part.label part.acc

/-- One sub-batch after the other. -/
def pushPartitionChunks (p : SegmentPacker α T) (label : Option T) :
    List (List α) → SegmentPacker α T × List (SnapshotFileStep α T U S H)
  | []               => (p, [])
  | batch :: batches =>
      let first := p.pushPartitionChunk cfg label batch
      let rest := first.1.pushPartitionChunks label batches
      (rest.1, first.2 ++ rest.2)

/-- A partition streamed as sub-batches. -/
def streamPartition (p : SegmentPacker α T) (label : Option T) (batches : List (List α)) :
    SegmentPacker α T × List (SnapshotFileStep α T U S H) :=
  let pushed := p.pushPartitionChunks cfg label batches
  let finished := pushed.1.finishPartition cfg
  (finished.1, pushed.2 ++ finished.2)

/-! ## Streaming -/

variable {cfg}

theorem openPartition_flush (p : SegmentPacker α T) : (p.flush cfg).1.openPartition = p.openPartition := by
  unfold flush
  split <;> rfl

/-- The files of some chunks leave everything but `chunk_idx`. -/
theorem singlePartitionFiles_fst (p : SegmentPacker α T) (label : Option T) (chunks : List (List α × Int)) :
    (p.singlePartitionFiles cfg label chunks).1 = { p with chunkIdx := p.chunkIdx + chunks.length } := by
  induction chunks generalizing p with
  | nil => rfl
  | cons chunk chunks ih =>
      rw [singlePartitionFiles]
      simp only [ih, List.length_cons, SegmentPacker.mk.injEq, true_and, and_true]
      omega

theorem singlePartitionFiles_open (p : SegmentPacker α T) (part : Option (OpenPartition α T)) (label : Option T)
    (chunks : List (List α × Int)) :
    (singlePartitionFiles cfg { p with openPartition := part } label chunks).2 =
      (p.singlePartitionFiles cfg label chunks).2 := by
  induction chunks generalizing p with
  | nil => rfl
  | cons chunk chunks ih =>
      have hrest := ih { p with chunkIdx := p.chunkIdx + 1 }
      simp only [singlePartitionFiles, List.cons.injEq, true_and]
      exact hrest

theorem singlePartitionFiles_append (cfg : PackerConfig α U S H) (p : SegmentPacker α T) (label : Option T) (chunks chunks' : List (List α × Int)) :
    (p.singlePartitionFiles cfg label (chunks ++ chunks')).2 =
      (p.singlePartitionFiles cfg label chunks).2 ++
        ((p.singlePartitionFiles cfg label chunks).1.singlePartitionFiles cfg label chunks').2 := by
  induction chunks generalizing p with
  | nil => rfl
  | cons chunk chunks ih => simp only [List.cons_append, singlePartitionFiles, ih]

/-- Cut pieces of the rows: the closed ones and the open one. -/
abbrev cutState (cfg : PackerConfig α U S H) (rows : List α) : GreedyCut.State α :=
  GreedyCut.walk cfg.rowBytes cfg.maxSegmentBytes rows

/-- The packer and its files after a partition's rows have been streamed in: nothing is written while the rows are
    one piece; then the buffer and every closed piece are out, and the open piece is held. -/
def streamed (cfg : PackerConfig α U S H) (p : SegmentPacker α T) (label : Option T) (rows : List α) :
    SegmentPacker α T × List (SnapshotFileStep α T U S H) :=
  if rows.isEmpty then (p, [])
  else if (cutState cfg rows).closed.isEmpty then ({ p with openPartition := some ⟨label, rows, false⟩ }, [])
  else
    let flushed := p.flush cfg
    let files := flushed.1.singlePartitionFiles cfg label (cutState cfg rows).closed
    ({ files.1 with openPartition := some ⟨label, (cutState cfg rows).current, true⟩ }, flushed.2 ++ files.2)

/-- The ranges of a batch in terms of its pieces: how many, the sealed ones, the last one. -/
theorem ranges_pieces (cfg : PackerConfig α U S H) {rows : List α} (h : rows ≠ []) :
    ((chunkRanges cfg.rowBytes cfg.maxSegmentBytes rows).length ≤ 1 ↔ (cutState cfg rows).closed = []) ∧
    slices rows (chunkRanges cfg.rowBytes cfg.maxSegmentBytes rows).dropLast = (cutState cfg rows).closed ∧
    ((chunkRanges cfg.rowBytes cfg.maxSegmentBytes rows).getLast?.map (fun last => (chunkOf rows last).1)) =
      some (cutState cfg rows).current := by
  have hmap : (chunkRanges cfg.rowBytes cfg.maxSegmentBytes rows).map (chunkOf rows) = (cutState cfg rows).pieces := by
    rw [map_chunkOf_chunkRanges, GreedyCut.cut_of_ne_nil h]
  refine ⟨?_, ?_, ?_⟩
  · rw [← List.length_map (f := chunkOf rows), hmap, GreedyCut.State.pieces, List.length_append,
      ← List.length_eq_zero_iff]
    simp only [List.length_cons, List.length_nil]
    omega
  · rw [slices, List.map_dropLast, hmap, GreedyCut.State.pieces, List.dropLast_concat]
  · have hlast : ((chunkRanges cfg.rowBytes cfg.maxSegmentBytes rows).map (chunkOf rows)).getLast? =
        some ((cutState cfg rows).current, (cutState cfg rows).running) := by
      rw [hmap, GreedyCut.State.pieces, List.getLast?_concat]
    rw [List.getLast?_map] at hlast
    have hfst := congrArg (Option.map Prod.fst) hlast
    rwa [Option.map_map] at hfst

theorem flush_open (p : SegmentPacker α T) (part : Option (OpenPartition α T)) :
    flush cfg { p with openPartition := part } =
      ({ (p.flush cfg).1 with openPartition := part }, (p.flush cfg).2) := by
  unfold flush
  split <;> rfl

theorem streamed_nil (p : SegmentPacker α T) (label : Option T) : streamed cfg p label [] = (p, []) := rfl

/-- Rows that are one piece are held. -/
theorem streamed_held (p : SegmentPacker α T) (label : Option T) {rows : List α} (h : rows ≠ [])
    (hclosed : (cutState cfg rows).closed = []) :
    streamed cfg p label rows = ({ p with openPartition := some ⟨label, rows, false⟩ }, []) := by
  rw [streamed, if_neg (by simpa using h), if_pos (by simpa using hclosed)]

/-- Rows of several pieces: the buffer and the closed pieces are out. -/
theorem streamed_written (p : SegmentPacker α T) (label : Option T) {rows : List α} (h : rows ≠ [])
    (hclosed : (cutState cfg rows).closed ≠ []) :
    streamed cfg p label rows =
      ({ (p.flush cfg).1 with
          chunkIdx := (p.flush cfg).1.chunkIdx + (cutState cfg rows).closed.length
          openPartition := some ⟨label, (cutState cfg rows).current, true⟩ },
        (p.flush cfg).2 ++ ((p.flush cfg).1.singlePartitionFiles cfg label (cutState cfg rows).closed).2) := by
  rw [streamed, if_neg (by simpa using h), if_neg (by simpa using hclosed)]
  simp only [singlePartitionFiles_fst]

/-- `push_partition_chunk` while the combined rows are one piece. -/
theorem pushPartitionChunk_held {q : SegmentPacker α T} {label : Option T} {batch : List α} (hbatch : batch ≠ [])
    (hclosed : (cutState cfg ((q.opened label).acc ++ batch)).closed = []) :
    q.pushPartitionChunk cfg label batch =
      ({ q with openPartition := some { q.opened label with acc := (q.opened label).acc ++ batch } }, []) := by
  have hne : (q.opened label).acc ++ batch ≠ [] := by simp [hbatch]
  rw [pushPartitionChunk, if_neg (by simpa using hbatch)]
  exact if_pos ((ranges_pieces cfg hne).1.mpr hclosed)

/-- `push_partition_chunk` once they are several. -/
theorem pushPartitionChunk_written {q : SegmentPacker α T} {label : Option T} {batch : List α} (hbatch : batch ≠ [])
    (hclosed : (cutState cfg ((q.opened label).acc ++ batch)).closed ≠ []) {flushed : SegmentPacker α T}
    {steps : List (SnapshotFileStep α T U S H)}
    (hflushed : (if (q.opened label).emittedAny then (q, []) else q.flush cfg) = (flushed, steps)) :
    q.pushPartitionChunk cfg label batch =
      ({ flushed with
          chunkIdx := flushed.chunkIdx + (cutState cfg ((q.opened label).acc ++ batch)).closed.length
          openPartition :=
            some ⟨(q.opened label).label, (cutState cfg ((q.opened label).acc ++ batch)).current, true⟩ },
        steps ++ (flushed.singlePartitionFiles cfg label
          (cutState cfg ((q.opened label).acc ++ batch)).closed).2) := by
  have hne : (q.opened label).acc ++ batch ≠ [] := by simp [hbatch]
  obtain ⟨hlength, hsealed, hlast⟩ := ranges_pieces cfg hne
  rw [pushPartitionChunk, if_neg (by simpa using hbatch)]
  refine Eq.trans (if_neg (fun h => hclosed (hlength.mp h))) ?_
  simp only [hflushed, hsealed, hlast, Option.getD_some, singlePartitionFiles_fst]

/-- As long as nothing is written, the partition is cut from its first row on. -/
theorem pushPartitionChunk_unwritten (p : SegmentPacker α T) {part : Option (OpenPartition α T)} {label : Option T}
    {rows batch : List α} (hpart : part.getD ⟨label, [], false⟩ = ⟨label, rows, false⟩) (hbatch : batch ≠ []) :
    pushPartitionChunk cfg { p with openPartition := part } label batch = streamed cfg p label (rows ++ batch) := by
  have hne : rows ++ batch ≠ [] := by simp [hbatch]
  have hopened : opened { p with openPartition := part } label = ⟨label, rows, false⟩ := hpart
  by_cases hclosed : (cutState cfg (rows ++ batch)).closed = []
  · rw [streamed_held p label hne hclosed, pushPartitionChunk_held hbatch (by rw [hopened]; exact hclosed), hopened]
  · have hflushed : (if (opened { p with openPartition := part } label).emittedAny then
        ({ p with openPartition := part }, []) else flush cfg { p with openPartition := part }) =
          ({ (p.flush cfg).1 with openPartition := part }, (p.flush cfg).2) := by
      rw [hopened, flush_open]
      rfl
    rw [streamed_written p label hne hclosed,
      pushPartitionChunk_written hbatch (by rw [hopened]; exact hclosed) hflushed, hopened, singlePartitionFiles_open]

/-- **One sub-batch.** -/
theorem pushPartitionChunk_streamed {p : SegmentPacker α T} (hopen : p.openPartition = none) (label : Option T)
    (rows batch : List α) :
    streamed cfg p label (rows ++ batch) =
      (((streamed cfg p label rows).1.pushPartitionChunk cfg label batch).1,
        (streamed cfg p label rows).2 ++ ((streamed cfg p label rows).1.pushPartitionChunk cfg label batch).2) := by
  by_cases hbatch : batch = []
  · subst hbatch
    simp [pushPartitionChunk]
  by_cases hnil : rows = []
  · subst hnil
    have hnone : ({ p with openPartition := none } : SegmentPacker α T) = p := by rw [← hopen]
    have hpush : pushPartitionChunk cfg { p with openPartition := none } label batch =
        streamed cfg p label ([] ++ batch) := pushPartitionChunk_unwritten p rfl hbatch
    rw [← hpush, hnone, streamed_nil]
    rfl
  by_cases hclosed : (cutState cfg rows).closed = []
  · rw [streamed_held p label hnil hclosed, pushPartitionChunk_unwritten p rfl hbatch]
    rfl
  · -- The buffer is out: the open piece is cut on together with the batch.
    have hne : rows ++ batch ≠ [] := by simp [hbatch]
    have hwalk : cutState cfg (rows ++ batch) =
        ⟨(cutState cfg rows).closed ++ (cutState cfg ((cutState cfg rows).current ++ batch)).closed,
          (cutState cfg ((cutState cfg rows).current ++ batch)).current,
          (cutState cfg ((cutState cfg rows).current ++ batch)).running⟩ := GreedyCut.walk_append hnil batch
    have hgrown : (cutState cfg (rows ++ batch)).closed ≠ [] := by
      rw [hwalk]
      simp [hclosed]
    rw [streamed_written p label hne hgrown, streamed_written p label hnil hclosed]
    by_cases hmore : (cutState cfg ((cutState cfg rows).current ++ batch)).closed = []
    · have hcurrent : (cutState cfg ((cutState cfg rows).current ++ batch)).current =
          (cutState cfg rows).current ++ batch := by
        have hspec : GreedyCut.Spec cfg.rowBytes cfg.maxSegmentBytes ((cutState cfg rows).current ++ batch)
            (cutState cfg ((cutState cfg rows).current ++ batch)).pieces :=
          GreedyCut.spec_walk _ (by simp [hbatch])
        have hflatten := hspec.flatten
        rw [GreedyCut.State.pieces, hmore] at hflatten
        simpa using hflatten
      rw [pushPartitionChunk_held hbatch hmore, hwalk, hmore, hcurrent]
      simp [opened]
    · rw [pushPartitionChunk_written hbatch hmore (if_pos rfl), hwalk]
      -- The files of the second half come after those of the first.
      have hfiles := singlePartitionFiles_append cfg (p.flush cfg).1 label (cutState cfg rows).closed
        (cutState cfg ((cutState cfg rows).current ++ batch)).closed
      rw [singlePartitionFiles_fst] at hfiles
      simp only [hfiles, List.length_append, ← Nat.add_assoc, List.append_assoc]
      congr 3
      exact (singlePartitionFiles_open _ _ _ _).symm

/-- **Every sub-batch.** -/
theorem pushPartitionChunks_streamed (cfg : PackerConfig α U S H) {p : SegmentPacker α T} (hopen : p.openPartition = none) (label : Option T)
    (rows : List α) (batches : List (List α)) :
    streamed cfg p label (rows ++ batches.flatten) =
      (((streamed cfg p label rows).1.pushPartitionChunks cfg label batches).1,
        (streamed cfg p label rows).2 ++ ((streamed cfg p label rows).1.pushPartitionChunks cfg label batches).2) := by
  induction batches generalizing rows with
  | nil => simp [pushPartitionChunks]
  | cons batch batches ih =>
      rw [List.flatten_cons, ← List.append_assoc, ih, pushPartitionChunk_streamed hopen]
      simp only [pushPartitionChunks, List.append_assoc]

/-- **The end of the partition**: what is written by then is what `push_partition` writes. -/
theorem finishPartition_streamed (hcost : ∀ row, 0 ≤ cfg.rowBytes row) {p : SegmentPacker α T}
    (hopen : p.openPartition = none) (label : Option T) (rows : List α) :
    p.pushPartition cfg label rows =
      (((streamed cfg p label rows).1.finishPartition cfg).1,
        (streamed cfg p label rows).2 ++ ((streamed cfg p label rows).1.finishPartition cfg).2) := by
  have hnone : ({ p with openPartition := none } : SegmentPacker α T) = p := by rw [← hopen]
  by_cases hnil : rows = []
  · subst hnil
    rw [streamed_nil, finishPartition, hopen]
    rfl
  by_cases hclosed : (cutState cfg rows).closed = []
  · rw [streamed_held p label hnil hclosed, finishPartition]
    simp only [List.isEmpty_iff, hnil, if_false, Bool.false_eq_true, List.nil_append, hnone]
  · have hcurrent : (cutState cfg rows).current ≠ [] := GreedyCut.current_ne_nil hnil
    have hwhole : slices rows (chunkRanges cfg.rowBytes cfg.maxSegmentBytes rows) = (cutState cfg rows).pieces := by
      rw [slices, map_chunkOf_chunkRanges, GreedyCut.cut_of_ne_nil hnil]
    have htail : slices (cutState cfg rows).current
        (chunkRanges cfg.rowBytes cfg.maxSegmentBytes (cutState cfg rows).current) =
          [((cutState cfg rows).current, (cutState cfg rows).running)] := by
      rw [slices, map_chunkOf_chunkRanges, GreedyCut.cut_of_ne_nil hcurrent, GreedyCut.walk_current hnil]
      rfl
    have hover : batchInMemoryBytes cfg rows > cfg.maxSegmentBytes := by
      refine GreedyCut.cap_lt_total (fun row _ => hcost row) ?_
      rw [GreedyCut.cut_of_ne_nil hnil, GreedyCut.State.pieces, List.length_append]
      have hpos : 0 < (cutState cfg rows).closed.length := List.length_pos_iff.mpr hclosed
      exact Nat.lt_add_of_pos_left hpos
    have hfiles := singlePartitionFiles_append cfg (p.flush cfg).1 label (cutState cfg rows).closed
      [((cutState cfg rows).current, (cutState cfg rows).running)]
    rw [singlePartitionFiles_fst] at hfiles
    have hflush : (p.flush cfg).1.openPartition = none := by rw [openPartition_flush, hopen]
    rw [streamed_written p label hnil hclosed, pushPartition, if_neg (by simpa using hnil), if_pos hover, hwhole,
      finishPartition]
    simp only [List.isEmpty_iff, hcurrent, if_false, if_true, htail, GreedyCut.State.pieces, hfiles,
      singlePartitionFiles_fst, List.length_append, List.append_assoc, hflush, Nat.add_assoc]

/-- **Streaming a partition is pushing it whole.** -/
theorem streamPartition_eq (hcost : ∀ row, 0 ≤ cfg.rowBytes row) {p : SegmentPacker α T}
    (hopen : p.openPartition = none) (label : Option T) (batches : List (List α)) :
    p.streamPartition cfg label batches = p.pushPartition cfg label batches.flatten := by
  have hpushed := pushPartitionChunks_streamed cfg hopen label [] batches
  rw [List.nil_append, streamed_nil, List.nil_append] at hpushed
  rw [finishPartition_streamed hcost hopen, hpushed]
  rfl

end SegmentPacker

/-! ## Batches of supported rows -/

/-- **Chunking and streaming.** For every batch, `chunk_row_ranges` returns consecutive non-empty ranges with the
    cost of their slices, cut greedily and stable under more rows; and streaming the batch in any sub-batches, to a
    packer with no open partition, leaves the packer and the files that pushing it at once does. -/
theorem chunkRowRanges_streamPartition {schema : List DataType} (rows : List (SupportedRow schema)) (maxBytes : Int) :
    (∃ ranges, Chunker.chunkRowRanges (batchOf rows) maxBytes = .ok ranges ∧
      Chunking SupportedRow.bytes maxBytes rows ranges ∧
      (∀ r ∈ ranges, Chunker.batchInMemoryBytes ((batchOf rows).slice r.offset r.len) = .ok r.inMemoryBytes) ∧
      ∀ k, ∃ short, Chunker.chunkRowRanges ((batchOf rows).slice 0 k) maxBytes = .ok short ∧
        Chunking SupportedRow.bytes maxBytes (rows.take k) short ∧ Extends short ranges) ∧
    ∀ (T U S H : Type) (cfg : PackerConfig (SupportedRow schema) U S H) (p : SegmentPacker (SupportedRow schema) T)
      (label : Option T) (batches : List (List (SupportedRow schema))),
      batches.flatten = rows → p.openPartition = none →
      p.streamPartition { cfg with rowBytes := SupportedRow.bytes, maxSegmentBytes := maxBytes } label batches =
        p.pushPartition { cfg with rowBytes := SupportedRow.bytes, maxSegmentBytes := maxBytes } label rows := by
  have hchunking := chunking_chunkRanges SupportedRow.bytes maxBytes rows
  refine ⟨⟨_, chunkRowRanges_batchOf rows maxBytes, hchunking, ?_, ?_⟩, ?_⟩
  · intro r hr
    rw [slice_batchOf, batchInMemoryBytes_batchOf, hchunking.costs r hr]
  · intro k
    refine ⟨chunkRanges SupportedRow.bytes maxBytes (rows.take k), ?_, chunking_chunkRanges _ _ _, ?_⟩
    · rw [slice_batchOf, List.drop_zero, chunkRowRanges_batchOf]
    · have hextends : Extends (chunkRanges SupportedRow.bytes maxBytes (rows.take k))
          (chunkRanges SupportedRow.bytes maxBytes (rows.take k ++ rows.drop k)) := chunkRanges_extends _ _
      rwa [List.take_append_drop] at hextends
  · intro T U S H cfg p label batches hflatten hopen
    rw [SegmentPacker.streamPartition_eq (fun row => rowBytes_nonneg row.cost) hopen, hflatten]

/-- A row of one byte column. -/
def byteRow : SupportedRow [.int8] := ⟨[.fixed], 2, rfl⟩

/-- Three rows of two bytes under a cap of four, streamed in two sub-batches to an empty packer. -/
theorem chunkRowRanges_streamPartition_bytes :
    SegmentPacker.streamPartition (⟨4, SupportedRow.bytes, id, fun _ => "file", fun _ => (), fun _ => ()⟩ :
        PackerConfig (SupportedRow [.int8]) Nat Unit Unit) (⟨[], 0, 0, none⟩ : SegmentPacker _ Nat) none
        [[byteRow, byteRow], [byteRow]] =
      SegmentPacker.pushPartition ⟨4, SupportedRow.bytes, id, fun _ => "file", fun _ => (), fun _ => ()⟩
        ⟨[], 0, 0, none⟩ none [byteRow, byteRow, byteRow] :=
  (chunkRowRanges_streamPartition [byteRow, byteRow, byteRow] 4).2 Nat Nat Unit Unit
    ⟨4, SupportedRow.bytes, id, fun _ => "file", fun _ => (), fun _ => ()⟩ ⟨[], 0, 0, none⟩ none
    [[byteRow, byteRow], [byteRow]] rfl rfl

end Penca.Files
