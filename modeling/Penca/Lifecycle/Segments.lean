import Penca.Lifecycle.Ops

/-!
# `Lifecycle.Segments` — the cold tier as queries see it

A query sees a persist segment through its metadata row: an identity, four bounds and the rows the row
points at. `SegmentView` is that picture, `Store.views` the whole cold log. The proofs about Persist are
about views: writing a segment either appends one view or, when the derived uuid already exists, must leave
the existing view alone (`NoClobberAt`).

## Contents
- **Views** and the well-formedness of the segment rows (`SegmentsWF`).
- **Chunking** loses, adds and reorders nothing.
- **Writing segments** appends the views of the new uuids (`views_writeSegments`).
- **Persist.** `writePersist` in terms of the views and of the persist watermark.
-/

namespace Penca

variable {R V : Type}

/-! ## Views -/

/-- What a query sees of a segment. -/
structure SegmentView (R V : Type) where
  uuid : SegmentUuid
  minTxCommitMicros : Int
  maxTxCommitMicros : Int
  minCommitSeqNum : Int
  maxCommitSeqNum : Int
  rows : List (LogEntry R V)
  deriving DecidableEq, Repr

/-- The view whose bounds are those of its rows. -/
def SegmentView.ofRows (uuid : SegmentUuid) (rows : List (LogEntry R V)) : SegmentView R V where
  uuid := uuid
  minTxCommitMicros := (rows.map LogEntry.commitMicros).min?.getD 0
  maxTxCommitMicros := (rows.map LogEntry.commitMicros).max?.getD 0
  minCommitSeqNum := (rows.map LogEntry.commitSeqNum).min?.getD 0
  maxCommitSeqNum := (rows.map LogEntry.commitSeqNum).max?.getD 0
  rows := rows

/-- The view of a segment row. -/
def Store.view (s : Store R V) (seg : PersistSegment) : SegmentView R V where
  uuid := seg.uuid
  minTxCommitMicros := seg.minTxCommitMicros
  maxTxCommitMicros := seg.maxTxCommitMicros
  minCommitSeqNum := seg.minCommitSeqNum
  maxCommitSeqNum := seg.maxCommitSeqNum
  rows := s.segmentRows seg

/-- The cold log. -/
def Store.views (s : Store R V) : List (SegmentView R V) := s.persistSegments.map s.view

/-- Between operations every segment row is committed, has its parent, points at its own file or at an
    existing merged file, and describes the rows it points at. -/
structure Store.SegmentsWF (s : Store R V) : Prop where
  committed : ∀ seg ∈ s.persistSegments, seg.committed = true
  parent : ∀ seg ∈ s.persistSegments, ∃ p ∈ s.tablePersists, p.uuid = seg.uuid.parent
  located : ∀ seg ∈ s.persistSegments,
    seg.objectUri = .segment seg.uuid ∨ ∃ n < s.mergedFiles, seg.objectUri = .merged n
  counted : ∀ seg ∈ s.persistSegments, seg.rowCount = (s.segmentRows seg).length
  exact : ∀ v ∈ s.views, v = SegmentView.ofRows v.uuid v.rows ∧ v.rows ≠ []

/-- The part of it that does not look at the bounds. -/
structure Store.SegmentsOk (s : Store R V) : Prop where
  committed : ∀ seg ∈ s.persistSegments, seg.committed = true
  parent : ∀ seg ∈ s.persistSegments, ∃ p ∈ s.tablePersists, p.uuid = seg.uuid.parent
  located : ∀ seg ∈ s.persistSegments,
    seg.objectUri = .segment seg.uuid ∨ ∃ n < s.mergedFiles, seg.objectUri = .merged n
  counted : ∀ seg ∈ s.persistSegments, seg.rowCount = (s.segmentRows seg).length
  nonempty : ∀ v ∈ s.views, v.rows ≠ []

theorem Store.SegmentsWF.ok {s : Store R V} (hwf : s.SegmentsWF) : s.SegmentsOk :=
  ⟨hwf.committed, hwf.parent, hwf.located, hwf.counted, fun v hv => (hwf.exact v hv).2⟩

/-- Well-formed rows stay so when every view is an old one or describes its rows. -/
theorem Store.SegmentsOk.wf {s s' : Store R V} (hok : s'.SegmentsOk) (hwf : s.SegmentsWF)
    (hviews : ∀ v ∈ s'.views, v ∈ s.views ∨ v = SegmentView.ofRows v.uuid v.rows) : s'.SegmentsWF := by
  refine ⟨hok.committed, hok.parent, hok.located, hok.counted, ?_⟩
  intro v hv
  rcases hviews v hv with hold | hnew
  · exact hwf.exact v hold
  · exact ⟨hnew, hok.nonempty v hv⟩

theorem Store.SegmentsWF.init : (Store.init : Store R V).SegmentsWF where
  committed := by simp [Store.init]
  parent := by simp [Store.init]
  located := by simp [Store.init]
  counted := by simp [Store.init]
  exact := by simp [Store.init, Store.views]

/-- Well-formedness is about the cold metadata and the files only. -/
theorem Store.SegmentsOk.of_eq {s s' : Store R V} (hok : s.SegmentsOk)
    (hparents : s'.tablePersists = s.tablePersists) (hsegs : s'.persistSegments = s.persistSegments)
    (hobjs : s'.objects = s.objects) (hmerged : s'.mergedFiles = s.mergedFiles) : s'.SegmentsOk := by
  obtain ⟨hcommitted, hparent, hlocated, hcounted, hnonempty⟩ := hok
  cases s
  cases s'
  subst hparents hsegs hobjs hmerged
  exact ⟨hcommitted, hparent, hlocated, hcounted, hnonempty⟩

theorem Store.views_of_eq {s s' : Store R V} (hsegs : s'.persistSegments = s.persistSegments)
    (hobjs : s'.objects = s.objects) : s'.views = s.views := by
  cases s
  cases s'
  subst hsegs hobjs
  rfl

theorem Store.SegmentsWF.of_eq {s s' : Store R V} (hwf : s.SegmentsWF)
    (hparents : s'.tablePersists = s.tablePersists) (hsegs : s'.persistSegments = s.persistSegments)
    (hobjs : s'.objects = s.objects) (hmerged : s'.mergedFiles = s.mergedFiles) : s'.SegmentsWF := by
  refine (hwf.ok.of_eq hparents hsegs hobjs hmerged).wf hwf ?_
  intro v hv
  rw [views_of_eq hsegs hobjs] at hv
  exact .inl hv

/-! ### Bounds -/

section Bounds

variable {α : Type} {l : List α} {f : α → Int}

theorem exists_max?_map (hne : l ≠ []) : ∃ a ∈ l, (l.map f).max? = some (f a) := by
  cases hm : (l.map f).max? with
  | none => exact absurd (List.map_eq_nil_iff.mp (List.max?_eq_none_iff.mp hm)) hne
  | some m =>
      obtain ⟨a, ha, rfl⟩ := List.mem_map.mp (List.max?_eq_some_iff.mp hm).1
      exact ⟨a, ha, rfl⟩

theorem exists_min?_map (hne : l ≠ []) : ∃ a ∈ l, (l.map f).min? = some (f a) := by
  cases hm : (l.map f).min? with
  | none => exact absurd (List.map_eq_nil_iff.mp (List.min?_eq_none_iff.mp hm)) hne
  | some m =>
      obtain ⟨a, ha, rfl⟩ := List.mem_map.mp (List.min?_eq_some_iff.mp hm).1
      exact ⟨a, ha, rfl⟩

theorem le_max?_map {m : Int} (hm : (l.map f).max? = some m) {a : α} (ha : a ∈ l) : f a ≤ m :=
  (List.max?_eq_some_iff.mp hm).2 _ (List.mem_map_of_mem ha)

theorem min?_map_le {m : Int} (hm : (l.map f).min? = some m) {a : α} (ha : a ∈ l) : m ≤ f a :=
  (List.min?_eq_some_iff.mp hm).2 _ (List.mem_map_of_mem ha)

end Bounds

/-- The bounds of a view limit its rows, and each is attained. -/
structure SegmentView.Exact (v : SegmentView R V) : Prop where
  micros : ∀ e ∈ v.rows, v.minTxCommitMicros ≤ e.commitMicros ∧ e.commitMicros ≤ v.maxTxCommitMicros
  seq : ∀ e ∈ v.rows, v.minCommitSeqNum ≤ e.commitSeqNum ∧ e.commitSeqNum ≤ v.maxCommitSeqNum
  minMicros : ∃ e ∈ v.rows, e.commitMicros = v.minTxCommitMicros
  maxMicros : ∃ e ∈ v.rows, e.commitMicros = v.maxTxCommitMicros
  maxSeq : ∃ e ∈ v.rows, e.commitSeqNum = v.maxCommitSeqNum

theorem SegmentView.exact_ofRows {uuid : SegmentUuid} {rows : List (LogEntry R V)} (hne : rows ≠ []) :
    (SegmentView.ofRows uuid rows).Exact := by
  obtain ⟨a, ha, hminM⟩ := exists_min?_map (f := LogEntry.commitMicros) hne
  obtain ⟨b, hb, hmaxM⟩ := exists_max?_map (f := LogEntry.commitMicros) hne
  obtain ⟨c, hc, hminS⟩ := exists_min?_map (f := LogEntry.commitSeqNum) hne
  obtain ⟨d, hd, hmaxS⟩ := exists_max?_map (f := LogEntry.commitSeqNum) hne
  refine ⟨fun e he => ?_, fun e he => ?_, ⟨a, ha, ?_⟩, ⟨b, hb, ?_⟩, ⟨d, hd, ?_⟩⟩
  · simp only [ofRows, hminM, hmaxM, Option.getD_some]
    exact ⟨min?_map_le hminM he, le_max?_map hmaxM he⟩
  · simp only [ofRows, hminS, hmaxS, Option.getD_some]
    exact ⟨min?_map_le hminS he, le_max?_map hmaxS he⟩
  all_goals simp [ofRows, hminM, hmaxM, hmaxS]

theorem Store.SegmentsWF.exact_of_mem {s : Store R V} (hwf : s.SegmentsWF) {v : SegmentView R V}
    (hv : v ∈ s.views) : v.Exact := by
  obtain ⟨heq, hne⟩ := hwf.exact v hv
  exact heq ▸ SegmentView.exact_ofRows hne

theorem SegmentView.exists_minCommitSeqNum_ofRows {uuid : SegmentUuid} {rows : List (LogEntry R V)}
    (hne : rows ≠ []) : ∃ e ∈ rows, e.commitSeqNum = (SegmentView.ofRows uuid rows).minCommitSeqNum := by
  obtain ⟨e, he, hmin⟩ := exists_min?_map (f := LogEntry.commitSeqNum) hne
  exact ⟨e, he, by simp [SegmentView.ofRows, hmin]⟩

theorem Store.SegmentsWF.exists_minCommitSeqNum {s : Store R V} (hwf : s.SegmentsWF) {v : SegmentView R V}
    (hv : v ∈ s.views) : ∃ e ∈ v.rows, e.commitSeqNum = v.minCommitSeqNum := by
  obtain ⟨heq, hne⟩ := hwf.exact v hv
  rw [heq]
  exact SegmentView.exists_minCommitSeqNum_ofRows hne

/-! ### Window fetch through views -/

/-- `persist_segment_overlap_clause` on a view. -/
def SegmentView.overlapsWindow (fromMicros toMicros commitSeqUpper : Option Int) (v : SegmentView R V) :
    Bool :=
  fromMicros.all (fun f => decide (v.maxTxCommitMicros > satPred f)) &&
    toMicros.all (fun t => decide (v.minTxCommitMicros ≤ satPred t)) &&
      commitSeqUpper.all (fun n => decide (v.minCommitSeqNum ≤ n))

section Window

variable {s : Store R V} (hok : s.SegmentsOk) {fromMicros toMicros commitSeqUpper : Option Int}

/-- The ceiling of a well-formed segment never clips a row. -/
theorem Store.readSegment_eq (hwf : s.SegmentsWF) {seg : PersistSegment} (hseg : seg ∈ s.persistSegments) :
    s.readSegment seg = s.segmentRows seg := by
  have hexact := hwf.exact_of_mem (List.mem_map_of_mem (f := s.view) hseg)
  rw [readSegment, List.filter_eq_self]
  intro e he
  exact decide_eq_true (hexact.seq e he).2

include hok

theorem Store.mem_segmentsForWindow_iff {seg : PersistSegment} :
    seg ∈ s.segmentsForWindow fromMicros toMicros commitSeqUpper ↔
      seg ∈ s.persistSegments ∧
        (s.view seg).overlapsWindow fromMicros toMicros commitSeqUpper = true := by
  rw [mem_segmentsForWindow]
  refine ⟨fun h => ⟨h.1, h.2.2.2.1⟩, fun ⟨hseg, hover⟩ => ?_⟩
  refine ⟨hseg, hok.committed seg hseg, hok.parent seg hseg, hover, ?_⟩
  rw [hok.counted seg hseg]
  have hne := hok.nonempty (s.view seg) (List.mem_map_of_mem hseg)
  simpa [view] using hne

omit hok in
theorem Store.mem_windowEntries_iff (hwf : s.SegmentsWF) {e : LogEntry R V} :
    e ∈ s.windowEntries fromMicros toMicros commitSeqUpper ↔
      ∃ v ∈ s.views, v.overlapsWindow fromMicros toMicros commitSeqUpper = true ∧ e ∈ v.rows := by
  rw [mem_windowEntries]
  constructor
  · rintro ⟨seg, hseg, he⟩
    obtain ⟨hmem, hover⟩ := (mem_segmentsForWindow_iff hwf.ok).mp hseg
    rw [readSegment_eq hwf hmem] at he
    exact ⟨s.view seg, List.mem_map_of_mem hmem, hover, he⟩
  · rintro ⟨v, hv, hover, he⟩
    obtain ⟨seg, hmem, rfl⟩ := List.mem_map.mp hv
    refine ⟨seg, (mem_segmentsForWindow_iff hwf.ok).mpr ⟨hmem, hover⟩, ?_⟩
    rw [readSegment_eq hwf hmem]
    exact he

theorem Store.maxPersistedSegmentSeqForWindow_eq :
    s.maxPersistedSegmentSeqForWindow fromMicros toMicros =
      ((s.views.filter (SegmentView.overlapsWindow fromMicros toMicros none)).map
        SegmentView.maxCommitSeqNum).max? := by
  have hfilter : s.persistSegments.filter (fun seg =>
      seg.committed && s.tablePersists.any (fun p => p.uuid = seg.uuid.parent) &&
        Penca.overlapsWindow fromMicros toMicros none seg) =
      s.persistSegments.filter (fun seg =>
        (s.view seg).overlapsWindow fromMicros toMicros none) := by
    refine List.filter_congr (fun seg hseg => ?_)
    have hany : s.tablePersists.any (fun p => p.uuid = seg.uuid.parent) = true := by
      simpa using hok.parent seg hseg
    rw [hok.committed seg hseg, hany]
    rfl
  rw [maxPersistedSegmentSeqForWindow, hfilter, views, List.filter_map, List.map_map]
  rfl

end Window

/-- Away from the ends of the 64-bit range the window test is the plain one. -/
theorem lt_iff_satPred_satSucc {x y : Int} (hx : i64Min < x) (hy : y < i64Max) :
    satPred (satSucc y) < x ↔ y < x := by
  unfold satPred satSucc i64Max i64Min at *
  omega

theorem le_satPred_satSucc_iff {x y : Int} (hx : i64Min < x) (hx' : x < i64Max) :
    x ≤ satPred (satSucc y) ↔ x ≤ y := by
  unfold satPred satSucc i64Max i64Min at *
  omega

/-! ## Chunking -/

/-- The chunks of a batch are its rows in order. -/
theorem flatten_chunkPersistBatch (cfg : PersistConfig R V) (batch : List (LogEntry R V)) :
    (chunkPersistBatch cfg batch).flatten = batch.insertionSort (fun a b => a.orderKey ≤ b.orderKey) :=
  (GreedyCut.spec_cut _).flatten

/-- The chunks of a batch hold its rows, each as often as the batch. -/
theorem perm_flatten_chunkPersistBatch (cfg : PersistConfig R V) (batch : List (LogEntry R V)) :
    (chunkPersistBatch cfg batch).flatten.Perm batch := by
  rw [flatten_chunkPersistBatch]
  exact List.perm_insertionSort _ _

theorem ne_nil_of_mem_chunkPersistBatch {cfg : PersistConfig R V} {batch : List (LogEntry R V)} :
    ∀ c ∈ chunkPersistBatch cfg batch, c ≠ [] := by
  intro c hc
  obtain ⟨piece, hpiece, rfl⟩ := List.mem_map.mp hc
  exact ((GreedyCut.spec_cut _).piece piece hpiece).nonempty

theorem mem_chunk_iff (cfg : PersistConfig R V) {batch : List (LogEntry R V)} {e : LogEntry R V} :
    (∃ c ∈ chunkPersistBatch cfg batch, e ∈ c) ↔ e ∈ batch := by
  rw [← List.mem_flatten, (perm_flatten_chunkPersistBatch cfg batch).mem_iff]

/-! ## Writing segments -/

/-- A segment row exists under the uuid. -/
def Store.hasSegment (s : Store R V) (uuid : SegmentUuid) : Bool :=
  s.persistSegments.any (fun seg => seg.uuid = uuid)

/-- Writing `w` does not change what an existing row of that uuid reads: the row is rewritten in place,
    with its bounds and slice kept. -/
def Store.NoClobberAt (s : Store R V) (w : SegmentUuid × List (LogEntry R V)) : Prop :=
  ∀ seg ∈ s.persistSegments, seg.uuid = w.1 → s.segmentRows seg = w.2 ∧ readSlice w.2 seg.slice = w.2

/-- What a write under `uuid` makes of an existing row. -/
def rewriteSegment (uuid : SegmentUuid) (rowCount : Nat) (seg : PersistSegment) : PersistSegment :=
  if seg.uuid = uuid then
    { seg with objectUri := .segment uuid, rowCount := rowCount, committed := true }
  else seg

@[simp] theorem rewriteSegment_uuid (uuid : SegmentUuid) (n : Nat) (seg : PersistSegment) :
    (rewriteSegment uuid n seg).uuid = seg.uuid := by
  unfold rewriteSegment
  split <;> rfl

theorem rewriteSegment_of_ne {uuid : SegmentUuid} {n : Nat} {seg : PersistSegment}
    (h : seg.uuid ≠ uuid) : rewriteSegment uuid n seg = seg := if_neg h

/-- The row inserted under a new uuid, after the write. -/
def writtenSegment (uuid : SegmentUuid) (rows : List (LogEntry R V)) : PersistSegment :=
  { newSegment uuid rows with committed := true }

section Write

variable {s : Store R V} {uuid : SegmentUuid} {rows : List (LogEntry R V)}

@[simp] theorem Store.writeSegment_tablePersists :
    (s.writeSegment uuid rows).tablePersists = s.tablePersists := rfl

@[simp] theorem Store.writeSegment_mergedFiles :
    (s.writeSegment uuid rows).mergedFiles = s.mergedFiles := rfl

theorem Store.hasSegment_eq_false_iff :
    s.hasSegment uuid = false ↔ ∀ seg ∈ s.persistSegments, seg.uuid ≠ uuid := by
  simp [hasSegment]

/-- The rows of the segment table after a write: rewritten in place, or one row more. -/
theorem Store.persistSegments_writeSegment :
    (s.writeSegment uuid rows).persistSegments =
      s.persistSegments.map (rewriteSegment uuid rows.length) ++
        if s.hasSegment uuid then [] else [writtenSegment uuid rows] := by
  unfold writeSegment commitTablePersistSegment putObject insertTablePersistSegment
  cases h : s.hasSegment uuid with
  | true =>
      rw [hasSegment] at h
      simp only [h, if_true, List.map_map, List.append_nil]
      refine List.map_congr_left (fun seg _ => ?_)
      by_cases hu : seg.uuid = uuid <;> simp [rewriteSegment, hu]
  | false =>
      have hne := hasSegment_eq_false_iff.mp h
      rw [hasSegment] at h
      have hold : ∀ f : PersistSegment → PersistSegment, (∀ seg, seg.uuid ≠ uuid → f seg = seg) →
          s.persistSegments.map f = s.persistSegments := fun f hf =>
        (List.map_congr_left (fun seg hseg => hf seg (hne seg hseg))).trans (List.map_id' _)
      simp only [h, Bool.false_eq_true, if_false, List.map_append]
      rw [hold _ (fun seg hu => if_neg hu), hold _ (fun seg hu => rewriteSegment_of_ne hu)]
      simp [writtenSegment, newSegment]

variable (hok : s.SegmentsOk)
include hok

/-- What an existing row reads after a write that does not clobber. -/
theorem Store.segmentRows_writeSegment (hnc : s.NoClobberAt (uuid, rows)) {seg : PersistSegment}
    (hseg : seg ∈ s.persistSegments) :
    (s.writeSegment uuid rows).segmentRows (rewriteSegment uuid rows.length seg) = s.segmentRows seg := by
  by_cases hu : seg.uuid = uuid
  · obtain ⟨hrows, hslice⟩ := hnc seg hseg hu
    rw [hrows, rewriteSegment, if_pos hu, segmentRows]
    simpa [writeSegment, commitTablePersistSegment, putObject] using hslice
  · have huri : seg.objectUri ≠ .segment uuid := by
      rcases hok.located seg hseg with h | ⟨n, -, h⟩
      · rw [h]
        simpa using hu
      · rw [h]
        simp
    rw [rewriteSegment_of_ne hu, segmentRows, segmentRows]
    simp [writeSegment, commitTablePersistSegment, putObject, Function.update_of_ne huri,
      insertTablePersistSegment]

/-- Writing one segment: the old views stay, and a new uuid adds the view of its rows. -/
theorem Store.views_writeSegment (hnc : s.NoClobberAt (uuid, rows)) :
    (s.writeSegment uuid rows).views =
      s.views ++ if s.hasSegment uuid then [] else [SegmentView.ofRows uuid rows] := by
  -- A row that is rewritten keeps its bounds and, not being clobbered, its rows.
  have hold : ∀ seg ∈ s.persistSegments,
      (s.writeSegment uuid rows).view (rewriteSegment uuid rows.length seg) = s.view seg := by
    intro seg hseg
    have hrows := segmentRows_writeSegment hok hnc hseg
    unfold view
    rw [hrows]
    unfold rewriteSegment
    split <;> rfl
  have hnew : (s.writeSegment uuid rows).view (writtenSegment uuid rows) =
      SegmentView.ofRows uuid rows := by
    simp [view, segmentRows, writtenSegment, newSegment, SegmentView.ofRows, readSlice, writeSegment,
      commitTablePersistSegment, putObject]
  have hmap : s.persistSegments.map ((s.writeSegment uuid rows).view ∘ rewriteSegment uuid rows.length)
      = s.views := List.map_congr_left hold
  rw [views, persistSegments_writeSegment, List.map_append, List.map_map, hmap]
  cases s.hasSegment uuid
  · simp [hnew]
  · simp

/-- A write that does not clobber keeps the segment rows well formed. -/
theorem Store.SegmentsOk.writeSegment (hnc : s.NoClobberAt (uuid, rows)) (hne : rows ≠ [])
    (hparent : ∃ p ∈ s.tablePersists, p.uuid = uuid.parent) : (s.writeSegment uuid rows).SegmentsOk := by
  -- Each row after the write is a rewritten old row or the new row.
  have hcases : ∀ seg' ∈ (s.writeSegment uuid rows).persistSegments,
      (∃ seg ∈ s.persistSegments, seg' = rewriteSegment uuid rows.length seg) ∨
        seg' = writtenSegment uuid rows := by
    intro seg' h
    rw [persistSegments_writeSegment, List.mem_append, List.mem_map] at h
    rcases h with ⟨seg, hseg, rfl⟩ | h
    · exact Or.inl ⟨seg, hseg, rfl⟩
    · split at h
      · simp at h
      · exact Or.inr (List.mem_singleton.mp h)
  constructor
  case committed =>
    intro seg' h
    rcases hcases seg' h with ⟨seg, hseg, rfl⟩ | rfl
    · unfold rewriteSegment
      split
      · rfl
      · exact hok.committed seg hseg
    · rfl
  case parent =>
    intro seg' h
    rcases hcases seg' h with ⟨seg, hseg, rfl⟩ | rfl
    · simpa using hok.parent seg hseg
    · exact hparent
  case located =>
    intro seg' h
    rcases hcases seg' h with ⟨seg, hseg, rfl⟩ | rfl
    · unfold rewriteSegment
      split
      · rename_i hu
        exact Or.inl (by simp [hu])
      · exact hok.located seg hseg
    · exact Or.inl rfl
  case counted =>
    intro seg' h
    rcases hcases seg' h with ⟨seg, hseg, rfl⟩ | rfl
    · rw [segmentRows_writeSegment hok hnc hseg]
      by_cases hu : seg.uuid = uuid
      · rw [(hnc seg hseg hu).1, rewriteSegment, if_pos hu]
      · rw [rewriteSegment_of_ne hu]
        exact hok.counted seg hseg
    · simp [segmentRows, writtenSegment, newSegment, readSlice, Store.writeSegment,
        commitTablePersistSegment, putObject]
  case nonempty =>
    intro v hv
    rw [views_writeSegment hok hnc, List.mem_append] at hv
    rcases hv with hv | hv
    · exact hok.nonempty v hv
    · split at hv
      · simp at hv
      · rw [List.mem_singleton.mp hv]
        exact hne

/-- A write under another uuid does not affect whether `w` clobbers. -/
theorem Store.NoClobberAt.writeSegment {w : SegmentUuid × List (LogEntry R V)}
    (hnc : s.NoClobberAt (uuid, rows)) (hw : s.NoClobberAt w) (hne : w.1 ≠ uuid) :
    (s.writeSegment uuid rows).NoClobberAt w := by
  intro seg' h hu
  rw [persistSegments_writeSegment, List.mem_append, List.mem_map] at h
  rcases h with ⟨seg, hseg, rfl⟩ | h
  · rw [segmentRows_writeSegment hok hnc hseg]
    rw [rewriteSegment_uuid] at hu
    rw [rewriteSegment_of_ne (hu ▸ hne)]
    exact hw seg hseg hu
  · split at h
    · simp at h
    · rw [List.mem_singleton.mp h] at hu
      exact absurd hu.symm hne

omit hok in
theorem Store.hasSegment_writeSegment {uuid' : SegmentUuid} (hne : uuid' ≠ uuid) :
    (s.writeSegment uuid rows).hasSegment uuid' = s.hasSegment uuid' := by
  rw [hasSegment, persistSegments_writeSegment, List.any_append, List.any_map]
  have hold : ((fun seg : PersistSegment => decide (seg.uuid = uuid')) ∘
      rewriteSegment uuid rows.length) = fun seg => decide (seg.uuid = uuid') := by
    funext seg
    simp
  rw [hold]
  split
  · simp [hasSegment]
  · simp [hasSegment, writtenSegment, newSegment, Ne.symm hne]

/-- The first of several writes leaves the others as harmless as they were. -/
theorem Store.SegmentsOk.writeSegment_head {ws : List (SegmentUuid × List (LogEntry R V))}
    (hnodup : (((uuid, rows) :: ws).map Prod.fst).Nodup) (hnc : ∀ w ∈ (uuid, rows) :: ws, s.NoClobberAt w)
    (hne : rows ≠ []) (hparent : ∃ p ∈ s.tablePersists, p.uuid = uuid.parent) :
    (s.writeSegment uuid rows).SegmentsOk ∧ (∀ w ∈ ws, w.1 ≠ uuid) ∧
      ∀ w ∈ ws, (s.writeSegment uuid rows).NoClobberAt w := by
  have hfirst := hnc (uuid, rows) (by simp)
  have hother : ∀ w ∈ ws, w.1 ≠ uuid := by
    intro w hw heq
    have hmem : w.1 ∈ ws.map Prod.fst := List.mem_map_of_mem hw
    exact (List.nodup_cons.mp hnodup).1 (heq ▸ hmem)
  refine ⟨hok.writeSegment hfirst hne hparent, hother, fun w hw => ?_⟩
  exact hfirst.writeSegment hok (hnc w (by simp [hw])) (hother w hw)

/-- **Writing segments.** Writes under distinct uuids that do not clobber append the views of the new
    uuids and leave the others alone. -/
theorem Store.views_writeSegments {ws : List (SegmentUuid × List (LogEntry R V))}
    (hnodup : (ws.map Prod.fst).Nodup) (hnc : ∀ w ∈ ws, s.NoClobberAt w) (hne : ∀ w ∈ ws, w.2 ≠ [])
    (hparent : ∀ w ∈ ws, ∃ p ∈ s.tablePersists, p.uuid = w.1.parent) :
    (s.writeSegments ws).SegmentsOk ∧
      (s.writeSegments ws).views = s.views ++
        (ws.filter (fun w => !s.hasSegment w.1)).map (fun w => SegmentView.ofRows w.1 w.2) := by
  induction ws generalizing s with
  | nil => exact ⟨hok, by simp [writeSegments]⟩
  | cons w ws ih =>
      obtain ⟨uuid, rows⟩ := w
      obtain ⟨hok₁, hother, hnc₁⟩ := hok.writeSegment_head hnodup hnc (hne (uuid, rows) (by simp))
        (hparent (uuid, rows) (by simp))
      obtain ⟨hok', hviews⟩ := ih hok₁ (List.nodup_cons.mp hnodup).2 hnc₁
        (fun w hw => hne w (by simp [hw])) (fun w hw => hparent w (by simp [hw]))
      refine ⟨hok', ?_⟩
      -- The first write decides nothing about which of the others are new.
      have hfilter : ws.filter (fun w => !(s.writeSegment uuid rows).hasSegment w.1) =
          ws.filter (fun w => !s.hasSegment w.1) :=
        List.filter_congr (fun w hw => by rw [hasSegment_writeSegment (hother w hw)])
      change ((s.writeSegment uuid rows).writeSegments ws).views = _
      rw [hviews, hfilter, views_writeSegment hok (hnc (uuid, rows) (by simp)), List.append_assoc]
      cases h : s.hasSegment uuid <;> simp [h]

end Write

/-- **Induction over segment writes.** What every single write that does not clobber keeps, a list of them
    under distinct uuids keeps. -/
theorem Store.writeSegments_induction {P : Store R V → Prop}
    (hstep : ∀ (s : Store R V) uuid rows, s.SegmentsOk → s.NoClobberAt (uuid, rows) → P s →
      P (s.writeSegment uuid rows))
    {s : Store R V} (hok : s.SegmentsOk) {ws : List (SegmentUuid × List (LogEntry R V))}
    (hnodup : (ws.map Prod.fst).Nodup) (hnc : ∀ w ∈ ws, s.NoClobberAt w) (hne : ∀ w ∈ ws, w.2 ≠ [])
    (hparent : ∀ w ∈ ws, ∃ p ∈ s.tablePersists, p.uuid = w.1.parent) (hs : P s) :
    P (s.writeSegments ws) := by
  induction ws generalizing s with
  | nil => exact hs
  | cons w ws ih =>
      obtain ⟨uuid, rows⟩ := w
      obtain ⟨hok₁, -, hnc₁⟩ := hok.writeSegment_head hnodup hnc (hne (uuid, rows) (by simp))
        (hparent (uuid, rows) (by simp))
      apply ih hok₁ (List.nodup_cons.mp hnodup).2 hnc₁
      · exact fun w hw => hne w (by simp [hw])
      · exact fun w hw => hparent w (by simp [hw])
      · exact hstep s uuid rows hok (hnc (uuid, rows) (by simp)) hs

/-! ### Rows fetched earlier -/

/-- The segment row `seg`, as an earlier statement returned it, still reads `rows`: no later write changed
    its file or the current row of its uuid. -/
structure Store.Serves (s : Store R V) (seg : PersistSegment) (rows : List (LogEntry R V)) : Prop where
  reads : s.segmentRows seg = rows
  located : seg.objectUri = .segment seg.uuid ∨ ∃ n < s.mergedFiles, seg.objectUri = .merged n
  current : ∃ seg' ∈ s.persistSegments,
    seg'.uuid = seg.uuid ∧ seg'.slice = seg.slice ∧ s.segmentRows seg' = rows

section Serves

variable {s s' : Store R V} {seg : PersistSegment} {rows : List (LogEntry R V)}

theorem Store.SegmentsWF.serves (hwf : s.SegmentsWF) (hseg : seg ∈ s.persistSegments) :
    s.Serves seg (s.segmentRows seg) :=
  ⟨rfl, hwf.located seg hseg, seg, hseg, rfl, rfl, rfl⟩

theorem Store.Serves.of_eq (h : s.Serves seg rows) (hsegs : s'.persistSegments = s.persistSegments)
    (hobjs : s'.objects = s.objects) (hmerged : s'.mergedFiles = s.mergedFiles) : s'.Serves seg rows := by
  obtain ⟨hreads, hlocated, hcurrent⟩ := h
  cases s
  cases s'
  subst hsegs hobjs hmerged
  exact ⟨hreads, hlocated, hcurrent⟩

theorem Store.Serves.writeSegment {uuid : SegmentUuid} {ws : List (LogEntry R V)}
    (h : s.Serves seg rows) (hok : s.SegmentsOk) (hnc : s.NoClobberAt (uuid, ws)) :
    (s.writeSegment uuid ws).Serves seg rows := by
  obtain ⟨seg', hseg', hu, hslice, hrows⟩ := h.current
  refine ⟨?_, h.located, rewriteSegment uuid ws.length seg', ?_, ?_, ?_, ?_⟩
  · by_cases huri : seg.objectUri = .segment uuid
    · -- The file is written again: the current row says with the same rows.
      have huuid : seg.uuid = uuid := by
        rcases h.located with hl | ⟨n, -, hl⟩
        · rw [hl] at huri
          exact ObjectUri.segment.inj huri
        · rw [hl] at huri
          cases huri
      obtain ⟨hsame, hread⟩ := hnc seg' hseg' (hu.trans huuid)
      rw [segmentRows, huri, ← hslice]
      simp only [Store.writeSegment, commitTablePersistSegment, putObject, Function.update_self]
      rw [hread, ← hrows, hsame]
    · rw [← h.reads, segmentRows, segmentRows]
      simp [Store.writeSegment, commitTablePersistSegment, putObject, Function.update_of_ne huri,
        insertTablePersistSegment]
  · rw [persistSegments_writeSegment]
    exact List.mem_append_left _ (List.mem_map_of_mem hseg')
  · rw [rewriteSegment_uuid, hu]
  · rw [← hslice, rewriteSegment]
    split <;> rfl
  · rw [segmentRows_writeSegment hok hnc hseg', hrows]

end Serves

/-- The entries of a cold log after writes that do not clobber: the old ones and the written ones. -/
theorem Store.exists_mem_views_append {s : Store R V} {ws : List (SegmentUuid × List (LogEntry R V))}
    (hnc : ∀ w ∈ ws, s.NoClobberAt w) {e : LogEntry R V} :
    (∃ v ∈ s.views ++ (ws.filter (fun w => !s.hasSegment w.1)).map (fun w => SegmentView.ofRows w.1 w.2),
        e ∈ v.rows) ↔ (∃ v ∈ s.views, e ∈ v.rows) ∨ ∃ w ∈ ws, e ∈ w.2 := by
  constructor
  · rintro ⟨v, hv, he⟩
    rcases List.mem_append.mp hv with hv | hv
    · exact Or.inl ⟨v, hv, he⟩
    · obtain ⟨w, hw, rfl⟩ := List.mem_map.mp hv
      exact Or.inr ⟨w, (List.mem_filter.mp hw).1, he⟩
  · rintro (⟨v, hv, he⟩ | ⟨w, hw, he⟩)
    · exact ⟨v, List.mem_append_left _ hv, he⟩
    · cases hhas : s.hasSegment w.1 with
      | false =>
          refine ⟨_, List.mem_append_right _ (List.mem_map_of_mem (List.mem_filter.mpr ⟨hw, ?_⟩)), he⟩
          simp [hhas]
      | true =>
          -- The uuid exists already: its row reads the same rows.
          obtain ⟨seg, hseg, hu⟩ := List.any_eq_true.mp hhas
          have hrows := (hnc w hw seg hseg (of_decide_eq_true hu)).1
          rw [← hrows] at he
          exact ⟨s.view seg, List.mem_append_left _ (List.mem_map_of_mem hseg), he⟩

/-! ## Persist -/

/-- The segments a Persist writes. -/
def persistWrites (cfg : PersistConfig R V) (target : Int) (upserts deletes : List (LogEntry R V)) :
    List (SegmentUuid × List (LogEntry R V)) :=
  segmentWrites ⟨target, .upsertLog⟩ (chunkPersistBatch cfg upserts) ++
    segmentWrites ⟨target, .deleteLog⟩ (chunkPersistBatch cfg deletes)

section PersistWrites

variable {cfg : PersistConfig R V} {target : Int} {upserts deletes : List (LogEntry R V)}
  {w : SegmentUuid × List (LogEntry R V)}

theorem mem_segmentWrites {parent : PersistUuid} {chunks : List (List (LogEntry R V))} :
    w ∈ segmentWrites parent chunks → w.1.parent = parent ∧ w.2 ∈ chunks := by
  unfold segmentWrites
  rw [List.mem_map]
  rintro ⟨c, hc, rfl⟩
  exact ⟨rfl, List.fst_mem_of_mem_zipIdx hc⟩

theorem exists_mem_segmentWrites (parent : PersistUuid) {chunks : List (List (LogEntry R V))}
    {rows : List (LogEntry R V)} (h : rows ∈ chunks) : ∃ w ∈ segmentWrites parent chunks, w.2 = rows := by
  obtain ⟨i, hi, rfl⟩ := List.mem_iff_getElem.mp h
  refine ⟨(⟨parent, i⟩, chunks[i]), List.mem_map.mpr ⟨(chunks[i], i), ?_, rfl⟩, rfl⟩
  rw [List.mk_mem_zipIdx_iff_getElem?]
  exact List.getElem?_eq_getElem hi

theorem nodup_map_fst_segmentWrites (parent : PersistUuid) (chunks : List (List (LogEntry R V))) :
    ((segmentWrites parent chunks).map Prod.fst).Nodup := by
  have hmap : (segmentWrites parent chunks).map Prod.fst =
      (chunks.zipIdx.map Prod.snd).map (fun i => (⟨parent, i⟩ : SegmentUuid)) := by
    simp only [segmentWrites, List.map_map]
    rfl
  rw [hmap, List.zipIdx_map_snd]
  exact (List.nodup_range').map (fun i j h => by simpa using h)

theorem nodup_map_fst_persistWrites :
    ((persistWrites cfg target upserts deletes).map Prod.fst).Nodup := by
  unfold persistWrites
  rw [List.map_append, List.nodup_append]
  refine ⟨nodup_map_fst_segmentWrites _ _, nodup_map_fst_segmentWrites _ _, ?_⟩
  intro a ha b hb hab
  obtain ⟨w, hw, rfl⟩ := List.mem_map.mp ha
  obtain ⟨w', hw', rfl⟩ := List.mem_map.mp hb
  have hparent := congrArg SegmentUuid.parent hab
  rw [(mem_segmentWrites hw).1, (mem_segmentWrites hw').1] at hparent
  simp at hparent

theorem ne_nil_of_mem_persistWrites (hw : w ∈ persistWrites cfg target upserts deletes) : w.2 ≠ [] := by
  rcases List.mem_append.mp hw with hw | hw
  · exact ne_nil_of_mem_chunkPersistBatch _ (mem_segmentWrites hw).2
  · exact ne_nil_of_mem_chunkPersistBatch _ (mem_segmentWrites hw).2

theorem exists_mem_persistWrites_iff {e : LogEntry R V} :
    (∃ w ∈ persistWrites cfg target upserts deletes, e ∈ w.2) ↔ e ∈ upserts ++ deletes := by
  rw [List.mem_append, ← mem_chunk_iff cfg, ← mem_chunk_iff cfg]
  constructor
  · rintro ⟨w, hw, he⟩
    rcases List.mem_append.mp hw with hw | hw
    · exact Or.inl ⟨w.2, (mem_segmentWrites hw).2, he⟩
    · exact Or.inr ⟨w.2, (mem_segmentWrites hw).2, he⟩
  · rintro (⟨c, hc, he⟩ | ⟨c, hc, he⟩)
    · obtain ⟨w, hw, rfl⟩ := exists_mem_segmentWrites ⟨target, .upsertLog⟩ hc
      exact ⟨w, List.mem_append_left _ hw, he⟩
    · obtain ⟨w, hw, rfl⟩ := exists_mem_segmentWrites ⟨target, .deleteLog⟩ hc
      exact ⟨w, List.mem_append_right _ hw, he⟩

theorem kind_of_mem_persistWrites (hups : ∀ e ∈ upserts, e.kind = .upsertLog)
    (hdels : ∀ e ∈ deletes, e.kind = .deleteLog) (hw : w ∈ persistWrites cfg target upserts deletes) :
    ∀ e ∈ w.2, e.kind = w.1.parent.logKind := by
  intro e he
  rcases List.mem_append.mp hw with hw | hw
  · obtain ⟨hp, hc⟩ := mem_segmentWrites hw
    rw [hp]
    exact hups e ((mem_chunk_iff cfg).mp ⟨w.2, hc, he⟩)
  · obtain ⟨hp, hc⟩ := mem_segmentWrites hw
    rw [hp]
    exact hdels e ((mem_chunk_iff cfg).mp ⟨w.2, hc, he⟩)

theorem parent_mem_persistParents (hw : w ∈ persistWrites cfg target upserts deletes) :
    w.1.parent ∈ persistParents target upserts deletes := by
  unfold persistParents
  rcases List.mem_append.mp hw with h | h
  · obtain ⟨hp, hc⟩ := mem_segmentWrites h
    have hne : upserts ≠ [] := by
      rintro rfl
      simp [chunkPersistBatch] at hc
    simp [hp, hne]
  · obtain ⟨hp, hc⟩ := mem_segmentWrites h
    have hne : deletes ≠ [] := by
      rintro rfl
      simp [chunkPersistBatch] at hc
    simp [hp, hne]

theorem persistParents_ne_nil (target : Int) (h : upserts ++ deletes ≠ []) : persistParents target upserts deletes ≠ [] := by
  cases upserts with
  | nil =>
      have hne : deletes ≠ [] := h
      simp [persistParents, hne]
  | cons e es => simp [persistParents]

end PersistWrites

/-! ### Parent rows -/

/-- Insert the parent rows of a Persist. -/
def Store.insertParents (s : Store R V) (parents : List PersistUuid) (persistedAt seq : Int) : Store R V :=
  parents.foldl (fun s uuid => s.insertTablePersist uuid persistedAt seq) s

theorem Store.insertTablePersist_writeSegments (s : Store R V) (uuid : PersistUuid)
    (persistedAt seq : Int) (ws : List (SegmentUuid × List (LogEntry R V))) :
    (s.writeSegments ws).insertTablePersist uuid persistedAt seq =
      (s.insertTablePersist uuid persistedAt seq).writeSegments ws := by
  induction ws generalizing s with
  | nil => rfl
  | cons w ws ih => exact ih (s.writeSegment w.1 w.2)

@[simp] theorem Store.writeSegments_nil (s : Store R V) : s.writeSegments [] = s := rfl

theorem Store.writeSegments_append (s : Store R V) (ws ws' : List (SegmentUuid × List (LogEntry R V))) :
    s.writeSegments (ws ++ ws') = (s.writeSegments ws).writeSegments ws' := List.foldl_append ..

/-- The parent rows and the segments of a Persist are independent writes. -/
theorem Store.writePersist_eq (cfg : PersistConfig R V) (s : Store R V) (target : Int)
    (upserts deletes : List (LogEntry R V)) (persistedAt seq : Int) :
    s.writePersist cfg target upserts deletes persistedAt seq =
      ((s.insertParents (persistParents target upserts deletes) persistedAt seq).writeSegments
        (persistWrites cfg target upserts deletes)).phase2ParentFlip
          (persistParents target upserts deletes) := by
  have hnil : ∀ parent, segmentWrites parent (chunkPersistBatch cfg []) = [] := fun _ => rfl
  unfold writePersist phase1DurableWrites writeLogKind persistWrites
  congr 1
  cases upserts <;> cases deletes <;>
    simp [persistParents, insertParents, hnil, writeSegments_append, insertTablePersist_writeSegments]

section Parents

variable {s : Store R V} {persistedAt seq : Int}

theorem Store.mem_insertTablePersist {uuid : PersistUuid} {p : TablePersist}
    (h : p ∈ (s.insertTablePersist uuid persistedAt seq).tablePersists) :
    (p ∈ s.tablePersists ∧ p.uuid ≠ uuid) ∨ (p.uuid = uuid ∧ p.persistedAtMicros = persistedAt) := by
  unfold insertTablePersist at h
  simp only at h
  split at h
  · obtain ⟨q, hq, rfl⟩ := List.mem_map.mp h
    split
    · exact Or.inr ⟨‹_›, rfl⟩
    · exact Or.inl ⟨hq, ‹_›⟩
  · rename_i hnone
    rcases List.mem_append.mp h with h | h
    · exact Or.inl ⟨h, fun heq => hnone (List.any_eq_true.mpr ⟨p, h, decide_eq_true heq⟩)⟩
    · rw [List.mem_singleton.mp h]
      exact Or.inr ⟨rfl, rfl⟩

theorem Store.exists_insertTablePersist_self (uuid : PersistUuid) :
    ∃ p ∈ (s.insertTablePersist uuid persistedAt seq).tablePersists,
      p.uuid = uuid ∧ p.persistedAtMicros = persistedAt := by
  unfold insertTablePersist
  simp only
  split
  · rename_i hany
    obtain ⟨q, hq, hu⟩ := List.any_eq_true.mp hany
    refine ⟨_, List.mem_map_of_mem hq, ?_⟩
    simp_all
  · exact ⟨⟨uuid, persistedAt, seq, false⟩, by simp, rfl, rfl⟩

theorem Store.exists_insertTablePersist_of_mem (uuid : PersistUuid) {p : TablePersist}
    (h : p ∈ s.tablePersists) :
    ∃ q ∈ (s.insertTablePersist uuid persistedAt seq).tablePersists, q.uuid = p.uuid ∧
      (q.persistedAtMicros = p.persistedAtMicros ∨ q.persistedAtMicros = persistedAt) := by
  unfold insertTablePersist
  simp only
  split
  · refine ⟨_, List.mem_map_of_mem h, ?_⟩
    split <;> simp
  · exact ⟨p, List.mem_append_left _ h, rfl, .inl rfl⟩

theorem Store.mem_insertParents {parents : List PersistUuid} {p : TablePersist}
    (h : p ∈ (s.insertParents parents persistedAt seq).tablePersists) :
    (p ∈ s.tablePersists ∧ p.uuid ∉ parents) ∨ (p.uuid ∈ parents ∧ p.persistedAtMicros = persistedAt) := by
  induction parents generalizing s with
  | nil => exact Or.inl ⟨h, List.not_mem_nil⟩
  | cons u us ih =>
      rcases ih h with ⟨h, hnot⟩ | ⟨hu, hp⟩
      · rcases mem_insertTablePersist h with ⟨h, hne⟩ | ⟨hu, hp⟩
        · exact Or.inl ⟨h, by simp [hne, hnot]⟩
        · exact Or.inr ⟨by simp [hu], hp⟩
      · exact Or.inr ⟨by simp [hu], hp⟩

theorem Store.exists_insertParents_of_mem (parents : List PersistUuid) {p : TablePersist}
    (h : p ∈ s.tablePersists) :
    ∃ q ∈ (s.insertParents parents persistedAt seq).tablePersists, q.uuid = p.uuid ∧
      (q.persistedAtMicros = p.persistedAtMicros ∨ q.persistedAtMicros = persistedAt) := by
  induction parents generalizing s p with
  | nil => exact ⟨p, h, rfl, .inl rfl⟩
  | cons u us ih =>
      obtain ⟨q, hq, huq, hpq⟩ := exists_insertTablePersist_of_mem u h
      obtain ⟨q', hq', huq', hpq'⟩ := ih hq
      refine ⟨q', hq', huq'.trans huq, ?_⟩
      rcases hpq' with hsame | hnew
      · exact hsame ▸ hpq
      · exact .inr hnew

theorem Store.exists_insertParents {parents : List PersistUuid} {uuid : PersistUuid}
    (h : uuid ∈ parents) : ∃ p ∈ (s.insertParents parents persistedAt seq).tablePersists,
      p.uuid = uuid ∧ p.persistedAtMicros = persistedAt := by
  induction parents generalizing s with
  | nil => simp at h
  | cons u us ih =>
      rcases List.mem_cons.mp h with rfl | h
      · obtain ⟨p, hp, hu, ha⟩ := exists_insertTablePersist_self uuid
        obtain ⟨q, hq, huq, hpq⟩ := exists_insertParents_of_mem us hp
        exact ⟨q, hq, huq.trans hu, hpq.elim (fun hsame => hsame.trans ha) id⟩
      · exact ih h

end Parents

/-! ### The gate -/

/-- What the gate lets through: the maxima of a non-empty batch, past the last watermark. -/
theorem computeCandidatePersistedAtGated_eq_some {last : Option Int}
    {upserts deletes : List (LogEntry R V)} {persistedAt seq : Int}
    (h : computeCandidatePersistedAtGated last upserts deletes = some (persistedAt, seq)) :
    (∃ e ∈ upserts ++ deletes, e.commitMicros = persistedAt) ∧
      (∀ e ∈ upserts ++ deletes, e.commitMicros ≤ persistedAt) ∧
      (∃ e ∈ upserts ++ deletes, e.commitSeqNum = seq) ∧
      (∀ e ∈ upserts ++ deletes, e.commitSeqNum ≤ seq) ∧ ∀ l, last = some l → l < persistedAt := by
  have hne : upserts ++ deletes ≠ [] := by
    intro hnil
    simp [computeCandidatePersistedAtGated, hnil] at h
  obtain ⟨a, ha, hmicros⟩ := exists_max?_map (f := LogEntry.commitMicros) hne
  obtain ⟨b, hb, hseq⟩ := exists_max?_map (f := LogEntry.commitSeqNum) hne
  unfold computeCandidatePersistedAtGated at h
  rw [hmicros, hseq] at h
  simp only [Option.ite_none_left_eq_some, Option.some.injEq, Prod.mk.injEq] at h
  obtain ⟨hgate, rfl, rfl⟩ := h
  refine ⟨⟨a, ha, rfl⟩, fun e he => le_max?_map hmicros he, ⟨b, hb, rfl⟩,
    fun e he => le_max?_map hseq he, ?_⟩
  rintro l rfl
  simpa using hgate

/-! ### The durable writes -/

/-- Two states that differ at most in the cold metadata and files. -/
structure Store.ColdOnly (s s' : Store R V) : Prop where
  commitSeqCounter : s'.commitSeqCounter = s.commitSeqCounter
  commitTxLog : s'.commitTxLog = s.commitTxLog
  hot : s'.hot = s.hot
  mergedFiles : s'.mergedFiles = s.mergedFiles
  snapshots : s'.snapshots = s.snapshots
  purges : s'.purges = s.purges

theorem Store.ColdOnly.trans {s s' s'' : Store R V} (h : s.ColdOnly s') (h' : s'.ColdOnly s'') :
    s.ColdOnly s'' :=
  ⟨h'.1.trans h.1, h'.2.trans h.2, h'.3.trans h.3, h'.4.trans h.4, h'.5.trans h.5, h'.6.trans h.6⟩

theorem Store.coldOnly_foldl {α : Type} {f : Store R V → α → Store R V}
    (hf : ∀ (s : Store R V) a, s.ColdOnly (f s a)) (as : List α) (s : Store R V) : s.ColdOnly (as.foldl f s) := by
  induction as generalizing s with
  | nil => exact ⟨rfl, rfl, rfl, rfl, rfl, rfl⟩
  | cons a as ih => exact (hf s a).trans (ih (f s a))

section WritePersist

variable {cfg : PersistConfig R V} {s : Store R V} {target persistedAt seq : Int}
  {upserts deletes : List (LogEntry R V)}

theorem Store.coldOnly_writePersist :
    s.ColdOnly (s.writePersist cfg target upserts deletes persistedAt seq) := by
  rw [writePersist_eq]
  have hparents := coldOnly_foldl (f := fun s uuid => s.insertTablePersist uuid persistedAt seq)
    (fun _ _ => ⟨rfl, rfl, rfl, rfl, rfl, rfl⟩) (persistParents target upserts deletes) s
  have hsegments := coldOnly_foldl (f := fun s w => s.writeSegment w.1 w.2)
    (fun _ _ => ⟨rfl, rfl, rfl, rfl, rfl, rfl⟩) (persistWrites cfg target upserts deletes)
    (s.insertParents (persistParents target upserts deletes) persistedAt seq)
  exact (hparents.trans hsegments).trans ⟨rfl, rfl, rfl, rfl, rfl, rfl⟩

theorem Store.tablePersists_writeSegments (s : Store R V)
    (ws : List (SegmentUuid × List (LogEntry R V))) :
    (s.writeSegments ws).tablePersists = s.tablePersists := by
  induction ws generalizing s with
  | nil => rfl
  | cons w ws ih => exact ih (s.writeSegment w.1 w.2)

/-- Parent rows do not show in the segment table or the files. -/
theorem Store.insertParents_segments (s : Store R V) (parents : List PersistUuid)
    (persistedAt seq : Int) :
    (s.insertParents parents persistedAt seq).persistSegments = s.persistSegments ∧
      (s.insertParents parents persistedAt seq).objects = s.objects ∧
      (s.insertParents parents persistedAt seq).mergedFiles = s.mergedFiles := by
  induction parents generalizing s with
  | nil => exact ⟨rfl, rfl, rfl⟩
  | cons u us ih => exact ih (s.insertTablePersist u persistedAt seq)

theorem Store.views_insertParents (s : Store R V) (parents : List PersistUuid) :
    (s.insertParents parents persistedAt seq).views = s.views := by
  obtain ⟨hsegs, hobjs, -⟩ := insertParents_segments s parents persistedAt seq
  unfold views
  rw [hsegs]
  refine List.map_congr_left (fun seg _ => ?_)
  simp only [view, segmentRows, hobjs]

theorem Store.SegmentsOk.insertParents (hok : s.SegmentsOk) (parents : List PersistUuid) :
    (s.insertParents parents persistedAt seq).SegmentsOk := by
  obtain ⟨hsegs, hobjs, hmerged⟩ := insertParents_segments s parents persistedAt seq
  have hrows : ∀ seg, (s.insertParents parents persistedAt seq).segmentRows seg = s.segmentRows seg :=
    fun seg => by rw [segmentRows, hobjs, segmentRows]
  constructor
  case committed =>
    rw [hsegs]
    exact hok.committed
  case parent =>
    rw [hsegs]
    intro seg hseg
    obtain ⟨p, hp, hu⟩ := hok.parent seg hseg
    obtain ⟨q, hq, huq, -⟩ := exists_insertParents_of_mem parents hp
    exact ⟨q, hq, huq.trans hu⟩
  case located =>
    rw [hsegs, hmerged]
    exact hok.located
  case counted =>
    rw [hsegs]
    intro seg hseg
    rw [hrows]
    exact hok.counted seg hseg
  case nonempty =>
    rw [views_insertParents]
    exact hok.nonempty

theorem Store.SegmentsOk.phase2ParentFlip (hok : s.SegmentsOk) (uuids : List PersistUuid) :
    (s.phase2ParentFlip uuids).SegmentsOk where
  committed := hok.committed
  parent := by
    intro seg hseg
    obtain ⟨p, hp, hu⟩ := hok.parent seg hseg
    refine ⟨_, List.mem_map_of_mem hp, ?_⟩
    rw [← hu]
    split <;> rfl
  located := hok.located
  counted := hok.counted
  nonempty := hok.nonempty

theorem Store.NoClobberAt.insertParents {w : SegmentUuid × List (LogEntry R V)} (hnc : s.NoClobberAt w)
    (parents : List PersistUuid) : (s.insertParents parents persistedAt seq).NoClobberAt w := by
  obtain ⟨hsegs, hobjs, -⟩ := insertParents_segments s parents persistedAt seq
  intro seg hseg hu
  rw [segmentRows, hobjs]
  exact hnc seg (hsegs ▸ hseg) hu

theorem Store.exists_parent_insertParents {w : SegmentUuid × List (LogEntry R V)}
    (hw : w ∈ persistWrites cfg target upserts deletes) :
    ∃ p ∈ (s.insertParents (persistParents target upserts deletes) persistedAt seq).tablePersists,
      p.uuid = w.1.parent := by
  obtain ⟨p, hp, hu, -⟩ := exists_insertParents (parent_mem_persistParents hw)
  exact ⟨p, hp, hu⟩

/-- **Durable writes of a Persist.** They append the views of the new uuids to the cold log. -/
theorem Store.writePersist_views (hok : s.SegmentsOk)
    (hnc : ∀ w ∈ persistWrites cfg target upserts deletes, s.NoClobberAt w) :
    (s.writePersist cfg target upserts deletes persistedAt seq).SegmentsOk ∧
      (s.writePersist cfg target upserts deletes persistedAt seq).views = s.views ++
        ((persistWrites cfg target upserts deletes).filter (fun w => !s.hasSegment w.1)).map
          (fun w => SegmentView.ofRows w.1 w.2) := by
  obtain ⟨hsegs, -, -⟩ := insertParents_segments s (persistParents target upserts deletes)
    persistedAt seq
  have hhas : ∀ uuid, (s.insertParents (persistParents target upserts deletes) persistedAt seq).hasSegment
      uuid = s.hasSegment uuid := fun uuid => by rw [hasSegment, hsegs, hasSegment]
  obtain ⟨hok', hviews⟩ := views_writeSegments (hok.insertParents _) nodup_map_fst_persistWrites
    (fun w hw => (hnc w hw).insertParents _) (fun w hw => ne_nil_of_mem_persistWrites hw)
    (fun w hw => exists_parent_insertParents hw)
  rw [writePersist_eq]
  refine ⟨hok'.phase2ParentFlip _, ?_⟩
  simp only [hhas, views_insertParents] at hviews
  exact hviews

theorem Store.Serves.writePersist {seg : PersistSegment} {rows : List (LogEntry R V)}
    (h : s.Serves seg rows) (hok : s.SegmentsOk)
    (hnc : ∀ w ∈ persistWrites cfg target upserts deletes, s.NoClobberAt w) :
    (s.writePersist cfg target upserts deletes persistedAt seq).Serves seg rows := by
  obtain ⟨hsegs, hobjs, hmerged⟩ := insertParents_segments s (persistParents target upserts deletes)
    persistedAt seq
  have hwritten := writeSegments_induction (P := fun s => s.Serves seg rows)
    (fun s uuid ws hok hnc hs => hs.writeSegment hok hnc) (hok.insertParents _)
    nodup_map_fst_persistWrites (fun w hw => (hnc w hw).insertParents _)
    (fun w hw => ne_nil_of_mem_persistWrites hw) (fun w hw => exists_parent_insertParents hw)
    (h.of_eq hsegs hobjs hmerged)
  rw [writePersist_eq]
  exact hwritten.of_eq rfl rfl rfl

/-- The parent rows after a Persist: inserted, then flipped. -/
theorem Store.tablePersists_writePersist :
    (s.writePersist cfg target upserts deletes persistedAt seq).tablePersists =
      (s.insertParents (persistParents target upserts deletes) persistedAt seq).tablePersists.map
        (fun p => if p.uuid ∈ persistParents target upserts deletes then { p with committed := true } else p) := by
  rw [writePersist_eq, phase2ParentFlip, tablePersists_writeSegments]

theorem Store.committed_writePersist (hall : ∀ p ∈ s.tablePersists, p.committed = true) :
    ∀ p ∈ (s.writePersist cfg target upserts deletes persistedAt seq).tablePersists, p.committed = true := by
  rw [tablePersists_writePersist]
  intro p hp
  obtain ⟨q, hq, rfl⟩ := List.mem_map.mp hp
  split
  · rfl
  · rename_i hu
    rcases mem_insertParents hq with ⟨hq, -⟩ | ⟨hq, -⟩
    · exact hall q hq
    · exact absurd hq hu

theorem Store.exists_persistWatermark_of_mem {q : TablePersist} (hq : q ∈ s.tablePersists)
    (hcommitted : q.committed = true) : ∃ l, s.persistWatermark = some l ∧ q.persistedAtMicros ≤ l := by
  have hmem : q.persistedAtMicros ∈
      (s.tablePersists.filter TablePersist.committed).map TablePersist.persistedAtMicros :=
    List.mem_map_of_mem (List.mem_filter.mpr ⟨hq, hcommitted⟩)
  cases hw : s.persistWatermark with
  | none =>
      rw [persistWatermark, List.max?_eq_none_iff] at hw
      simp [hw] at hmem
  | some l => exact ⟨l, rfl, (List.max?_eq_some_iff.mp hw).2 _ hmem⟩

/-- After a Persist that passes its gate the watermark is the candidate. -/
theorem Store.writePersist_persistWatermark (hall : ∀ p ∈ s.tablePersists, p.committed = true)
    (hne : upserts ++ deletes ≠ []) (hgate : ∀ l, s.persistWatermark = some l → l < persistedAt) :
    (s.writePersist cfg target upserts deletes persistedAt seq).persistWatermark = some persistedAt := by
  rw [persistWatermark, List.filter_eq_self.mpr (committed_writePersist hall), List.max?_eq_some_iff,
    tablePersists_writePersist, List.map_map]
  have hflip : ∀ p : TablePersist, TablePersist.persistedAtMicros
      (if p.uuid ∈ persistParents target upserts deletes then { p with committed := true } else p) =
        p.persistedAtMicros := by
    intro p
    split <;> rfl
  simp only [Function.comp_def, hflip]
  constructor
  · obtain ⟨u, hu⟩ := List.exists_mem_of_ne_nil _ (persistParents_ne_nil target hne)
    obtain ⟨p, hp, -, hat⟩ := exists_insertParents hu
    exact List.mem_map.mpr ⟨p, hp, hat⟩
  · intro m hm
    obtain ⟨q, hq, rfl⟩ := List.mem_map.mp hm
    rcases mem_insertParents hq with ⟨hq, -⟩ | ⟨-, hq⟩
    · -- An old row is at most the old watermark.
      obtain ⟨l, hw, hle⟩ := exists_persistWatermark_of_mem hq (hall q hq)
      exact hle.trans (hgate l hw).le
    · exact hq.le

end WritePersist

/-! ### The operation -/

/-- The guard on a Persist that passes its gate: none of its writes clobbers. Every other operation is
    unguarded. -/
def NoClobber (cfg : PersistConfig R V) (s : Store R V) : Op R V → Prop
  | .persist requestTarget step1Now =>
      let target := effectiveTarget requestTarget step1Now
      let upserts := s.readCommitted .upsertLog target
      let deletes := s.readCommitted .deleteLog target
      (computeCandidatePersistedAtGated s.persistWatermark upserts deletes).isSome →
        ∀ w ∈ persistWrites cfg target upserts deletes, s.NoClobberAt w
  | _ => True

instance [DecidableEq R] [DecidableEq V] (s : Store R V) (w : SegmentUuid × List (LogEntry R V)) :
    Decidable (s.NoClobberAt w) :=
  inferInstanceAs (Decidable (∀ seg ∈ s.persistSegments, _ → _))

instance [DecidableEq R] [DecidableEq V] (cfg : PersistConfig R V) (s : Store R V) :
    ∀ op, Decidable (NoClobber cfg s op)
  | .persist _ _  => inferInstanceAs (Decidable (_ → ∀ w ∈ _, s.NoClobberAt w))
  | .commit _ _   => isTrue trivial
  | .snapshot _ _ => isTrue trivial
  | .purge        => isTrue trivial

/-- Both guards: a Persist does not clobber, a Snapshot rewrites the partitions of the rows it replaces. -/
def KeepsRows [DecidableEq R] (cfg : PersistConfig R V) (s : Store R V) (op : Op R V) : Prop :=
  NoClobber cfg s op ∧ RewritesReplaced cfg s op

instance [DecidableEq R] [DecidableEq V] (cfg : PersistConfig R V) (s : Store R V) (op : Op R V) :
    Decidable (KeepsRows cfg s op) :=
  inferInstanceAs (Decidable (_ ∧ _))

theorem Store.mem_readCommitted {s : Store R V} {kind : LogKind} {target : Int} {e : LogEntry R V} :
    e ∈ s.readCommitted kind target ↔ e ∈ s.hot ∧ e.kind = kind ∧ e.commitMicros < satSucc target := by
  simp [readCommitted]

/-- The batches of a Persist are the hot rows at or below its target. -/
theorem Store.mem_readCommitted_append {s : Store R V} {target : Int} {e : LogEntry R V} :
    e ∈ s.readCommitted .upsertLog target ++ s.readCommitted .deleteLog target ↔
      e ∈ s.hot ∧ e.commitMicros < satSucc target := by
  rw [List.mem_append, mem_readCommitted, mem_readCommitted]
  cases e.kind <;> simp

/-- A Persist changes nothing, or passes its gate and does its durable writes. -/
theorem Store.persistLocked_cases (cfg : PersistConfig R V) (s : Store R V)
    (requestTarget : Option Int) (step1Now : Int) :
    s.persistLocked cfg requestTarget step1Now = s ∨
      ∃ persistedAt seq,
        computeCandidatePersistedAtGated s.persistWatermark
          (s.readCommitted .upsertLog (effectiveTarget requestTarget step1Now))
          (s.readCommitted .deleteLog (effectiveTarget requestTarget step1Now)) =
            some (persistedAt, seq) ∧
        s.persistLocked cfg requestTarget step1Now =
          s.writePersist cfg (effectiveTarget requestTarget step1Now)
            (s.readCommitted .upsertLog (effectiveTarget requestTarget step1Now))
            (s.readCommitted .deleteLog (effectiveTarget requestTarget step1Now)) persistedAt seq := by
  unfold persistLocked
  simp only
  split
  · exact Or.inl rfl
  · split
    · exact Or.inl rfl
    · rename_i persistedAt seq hgate
      exact Or.inr ⟨persistedAt, seq, hgate, rfl⟩

/-- The segments of a Persist hold its batches, each row as often as the batches. -/
theorem perm_flatMap_persistWrites (cfg : PersistConfig R V) (target : Int)
    (upserts deletes : List (LogEntry R V)) :
    ((persistWrites cfg target upserts deletes).flatMap Prod.snd).Perm (upserts ++ deletes) := by
  have hlog : ∀ parent (chunks : List (List (LogEntry R V))),
      (segmentWrites parent chunks).flatMap Prod.snd = chunks.flatten := by
    intro parent chunks
    rw [segmentWrites, List.flatMap_map, List.flatMap_def]
    exact congrArg List.flatten (List.zipIdx_map_fst 0 chunks)
  rw [persistWrites, List.flatMap_append, hlog, hlog]
  exact (perm_flatten_chunkPersistBatch cfg upserts).append (perm_flatten_chunkPersistBatch cfg deletes)

/-- The two batches together are the hot rows at or below the target. -/
theorem Store.perm_readCommitted_append (s : Store R V) (target : Int) :
    (s.readCommitted .upsertLog target ++ s.readCommitted .deleteLog target).Perm
      (s.hot.filter (fun e => decide (e.commitMicros < satSucc target))) := by
  have hups : s.readCommitted .upsertLog target =
      (s.hot.filter (fun e => decide (e.commitMicros < satSucc target))).filter
        (fun e => decide (e.kind = .upsertLog)) := by
    rw [readCommitted, List.filter_filter]
    simp
  have hdels : s.readCommitted .deleteLog target =
      (s.hot.filter (fun e => decide (e.commitMicros < satSucc target))).filter
        (fun e => !decide (e.kind = .upsertLog)) := by
    rw [readCommitted, List.filter_filter]
    refine List.filter_congr (fun e _ => ?_)
    cases e.kind <;> simp
  rw [hups, hdels]
  exact List.filter_append_perm _ _

/-- What a Persist that passes its gate does. -/
structure Store.Persisted (s s' : Store R V) (persistedAt : Int) : Prop where
  coldOnly : s.ColdOnly s'
  segments : s'.SegmentsWF
  parents : ∀ p ∈ s'.tablePersists, p.committed = true
  watermark : s'.persistWatermark = some persistedAt
  advances : ∀ l, s.persistWatermark = some l → l < persistedAt
  attained : ∃ e ∈ s.hot, e.commitMicros = persistedAt
  /-- It cuts the hot rows up to `persistedAt` into segments and appends those under new uuids. -/
  views : ∃ ws : List (SegmentUuid × List (LogEntry R V)),
    (ws.flatMap Prod.snd).Perm (s.hot.filter (fun e => decide (e.commitMicros ≤ persistedAt))) ∧
    (∀ w ∈ ws, s.NoClobberAt w ∧ w.2 ≠ [] ∧ ∀ e ∈ w.2, e.kind = w.1.parent.logKind) ∧
    s'.views = s.views ++
      (ws.filter (fun w => !s.hasSegment w.1)).map (fun w => SegmentView.ofRows w.1 w.2)

/-- The same without the bounds of the older segments. -/
structure Store.Flushed (s s' : Store R V) (persistedAt : Int) : Prop where
  coldOnly : s.ColdOnly s'
  segments : s'.SegmentsOk
  parents : ∀ p ∈ s'.tablePersists, p.committed = true
  watermark : s'.persistWatermark = some persistedAt
  advances : ∀ l, s.persistWatermark = some l → l < persistedAt
  attained : ∃ e ∈ s.hot, e.commitMicros = persistedAt
  views : ∃ ws : List (SegmentUuid × List (LogEntry R V)),
    (ws.flatMap Prod.snd).Perm (s.hot.filter (fun e => decide (e.commitMicros ≤ persistedAt))) ∧
    (∀ w ∈ ws, s.NoClobberAt w ∧ w.2 ≠ [] ∧ ∀ e ∈ w.2, e.kind = w.1.parent.logKind) ∧
    s'.views = s.views ++
      (ws.filter (fun w => !s.hasSegment w.1)).map (fun w => SegmentView.ofRows w.1 w.2)

theorem Store.Flushed.persisted {s s' : Store R V} {persistedAt : Int} (h : s.Flushed s' persistedAt)
    (hwf : s.SegmentsWF) : s.Persisted s' persistedAt := by
  refine ⟨h.coldOnly, h.segments.wf hwf ?_, h.parents, h.watermark, h.advances, h.attained, h.views⟩
  obtain ⟨ws, -, -, hviews⟩ := h.views
  intro v hv
  rw [hviews, List.mem_append] at hv
  rcases hv with hold | hnew
  · exact .inl hold
  · obtain ⟨w, -, rfl⟩ := List.mem_map.mp hnew
    exact .inr rfl

/-- **Persist.** It changes nothing, or it persists the hot rows up to a new watermark. -/
theorem Store.persistLocked_flushed {cfg : PersistConfig R V} {s : Store R V} {requestTarget : Option Int}
    {step1Now : Int} (hok : s.SegmentsOk) (hparents : ∀ p ∈ s.tablePersists, p.committed = true)
    (hnc : NoClobber cfg s (.persist requestTarget step1Now)) :
    s.persistLocked cfg requestTarget step1Now = s ∨
      ∃ persistedAt, s.Flushed (s.persistLocked cfg requestTarget step1Now) persistedAt := by
  rcases s.persistLocked_cases cfg requestTarget step1Now with heq | ⟨persistedAt, seq, hgate, heq⟩
  · exact Or.inl heq
  refine Or.inr ⟨persistedAt, ?_⟩
  have hnc := hnc (hgate ▸ rfl)
  rw [heq]
  generalize effectiveTarget requestTarget step1Now = target at hgate hnc ⊢
  obtain ⟨⟨a, ha, hat⟩, hmax, -, -, hlast⟩ := computeCandidatePersistedAtGated_eq_some hgate
  obtain ⟨hok', hviews⟩ := writePersist_views hok hnc
  obtain ⟨hahot, hatarget⟩ := mem_readCommitted_append.mp ha
  -- The target and the watermark it leads to cut hot at the same place.
  have hfilter : s.hot.filter (fun e => decide (e.commitMicros < satSucc target)) =
      s.hot.filter (fun e => decide (e.commitMicros ≤ persistedAt)) := by
    refine List.filter_congr (fun e he => decide_eq_decide.mpr ⟨fun hlt => ?_, fun hle => ?_⟩)
    · exact hmax e (mem_readCommitted_append.mpr ⟨he, hlt⟩)
    · omega
  refine ⟨coldOnly_writePersist, hok', committed_writePersist hparents,
    writePersist_persistWatermark hparents (List.ne_nil_of_mem ha) hlast, hlast, ⟨a, hahot, hat⟩,
    persistWrites cfg target _ _, ?_, fun w hw => ⟨hnc w hw, ne_nil_of_mem_persistWrites hw, ?_⟩, hviews⟩
  · rw [← hfilter]
    exact (perm_flatMap_persistWrites cfg target _ _).trans (s.perm_readCommitted_append target)
  · exact kind_of_mem_persistWrites (fun e he => (mem_readCommitted.mp he).2.1)
      (fun e he => (mem_readCommitted.mp he).2.1) hw

theorem Store.persistLocked_spec {cfg : PersistConfig R V} {s : Store R V} {requestTarget : Option Int}
    {step1Now : Int} (hwf : s.SegmentsWF) (hparents : ∀ p ∈ s.tablePersists, p.committed = true)
    (hnc : NoClobber cfg s (.persist requestTarget step1Now)) :
    s.persistLocked cfg requestTarget step1Now = s ∨
      ∃ persistedAt, s.Persisted (s.persistLocked cfg requestTarget step1Now) persistedAt := by
  rcases persistLocked_flushed hwf.ok hparents hnc with heq | ⟨persistedAt, hflushed⟩
  · exact .inl heq
  · exact .inr ⟨persistedAt, hflushed.persisted hwf⟩

/-! ## What operations leave alone -/

theorem Store.coldOnly_persistLocked (cfg : PersistConfig R V) (s : Store R V) (requestTarget : Option Int)
    (step1Now : Int) : s.ColdOnly (s.persistLocked cfg requestTarget step1Now) := by
  rcases s.persistLocked_cases cfg requestTarget step1Now with heq | ⟨persistedAt, seq, -, heq⟩
  · rw [heq]
    exact ⟨rfl, rfl, rfl, rfl, rfl, rfl⟩
  · rw [heq]
    exact coldOnly_writePersist

/-- Only a Snapshot adds snapshots, the one of its window. -/
theorem snapshots_of_step [DecidableEq R] {cfg : PersistConfig R V} {s s' : Store R V} {o : Op R V}
    (h : step cfg s o = some s') :
    s'.snapshots = s.snapshots ∨
      ∃ snapshottedAt indexes upper prev, o = .snapshot snapshottedAt indexes ∧
        s.computeSnapshotWindow snapshottedAt = some (upper, prev) ∧
        s' = s.snapshotLocked cfg snapshottedAt indexes ∧
        s'.snapshots = s.snapshots ++ [s.newSnapshot cfg upper prev indexes] := by
  cases o with
  | commit micros rows =>
      left
      simp only [step, Store.commitTx] at h
      split at h
      · split at h <;> exact Option.some.inj h ▸ rfl
      · simp at h
  | persist requestTarget step1Now =>
      cases h
      exact Or.inl (s.coldOnly_persistLocked cfg requestTarget step1Now).snapshots
  | snapshot snapshottedAt indexes =>
      cases h
      cases hwindow : s.computeSnapshotWindow snapshottedAt with
      | none =>
          left
          simp [Store.snapshotLocked, hwindow]
      | some window =>
          right
          refine ⟨snapshottedAt, indexes, window.1, window.2, rfl, hwindow, rfl, ?_⟩
          simp [Store.snapshotLocked, hwindow]
  | purge =>
      cases h
      left
      show s.purgeLocked.snapshots = s.snapshots
      unfold Store.purgeLocked
      split <;> rfl

end Penca
