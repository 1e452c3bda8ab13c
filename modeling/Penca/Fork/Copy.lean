import Penca.Lib.Keyed
import Penca.Lifecycle.Headers
import Penca.Query.Branch

/-!
# `Fork.Copy` — what a fork copies of a table

`CreateBranch` flushes the parent up to the fork position (`PersistBranch`) and then copies cold references
onto the child, table by table: the newest snapshot at or below the fork on both axes, the persist headers at
or past it, and under each header the segments that begin at or below the fork, their ceiling lowered to it.
Only metadata is copied; a child row names its parent's file, here under a name of its own (`.merged k`).

- **Main result:** the child of a flushed parent satisfies the branch invariant for the parent's log cut at
  the fork (`forkChild_inv`): nothing at or below the fork is missing, nothing past it is visible.
- What the child reads is therefore right exactly when the leftovers of the inherited snapshot agree with
  it, and it inherited anything at all: only tables the parent lists when the fork is made are copied
  (`forkReads_iff`).
-/

namespace Penca

open Newest

variable {R V : Type}

/-! ## The copy -/

/-- The committed position a branch is forked at. -/
structure ForkPoint where
  commitSeqNum : Int
  commitMicros : Int
  deriving DecidableEq, Repr

/-- `copy_inherited_snapshot`: the newest committed snapshot at or below the fork on both axes. -/
def Store.inheritedSnapshot (p : Store R V) (fork : ForkPoint) : Option (TableSnapshot R V) :=
  p.pickSnapshotAsOf fork.commitMicros (some fork.commitSeqNum)

/-- `header_from`. -/
def headerFrom (baseline : Option Int) : Int := baseline.getD i64Min

/-- `segment_from`. -/
def segmentFrom (baseline : Option Int) : Int := (baseline.map satSucc).getD i64Min

/-- The committed segments of a header that begin at or below the fork. -/
def Store.segmentsAtFork (p : Store R V) (fork : ForkPoint) (header : TablePersist) : List PersistSegment :=
  (p.persistSegments.filter (fun seg => decide (seg.uuid.parent = header.uuid) && seg.committed &&
    decide (seg.minCommitSeqNum ≤ fork.commitSeqNum))).insertionSort
      (fun a b => a.uuid.chunkIdx ≤ b.uuid.chunkIdx)

/-- The headers that are copied, each with its segments: the baseline's own header bare, the others if they
    have a segment. -/
def Store.inheritedRuns (p : Store R V) (fork : ForkPoint) (baseline : Option Int) :
    List (TablePersist × List PersistSegment) :=
  ((p.tablePersists.filter (fun header => header.committed &&
    decide (headerFrom baseline ≤ header.persistedAtMicros))).insertionSort
      (fun a b => a.persistedAtMicros ≤ b.persistedAtMicros)).filterMap (fun header =>
    if header.persistedAtMicros ≤ satPred (segmentFrom baseline) then some (header, [])
    else if p.segmentsAtFork fork header = [] then none
    else some (header, p.segmentsAtFork fork header))

/-- The uuid of a header on the child. -/
def inheritedUuid (header : TablePersist) : PersistUuid := ⟨header.persistedAtMicros, header.uuid.logKind⟩

/-- A header on the child. -/
def inheritHeader (fork : ForkPoint) (header : TablePersist) : TablePersist where
  uuid := inheritedUuid header
  persistedAtMicros := header.persistedAtMicros
  commitSeqNum := min header.commitSeqNum fork.commitSeqNum
  committed := true

/-- A segment on the child: sealed, its ceiling lowered to the fork, `k` naming the parent's file. -/
def inheritSegment (fork : ForkPoint) (header : TablePersist) (seg : PersistSegment) (k : Nat) :
    PersistSegment :=
  { seg with
    uuid := ⟨inheritedUuid header, seg.uuid.chunkIdx⟩
    maxCommitSeqNum := min seg.maxCommitSeqNum fork.commitSeqNum
    objectUri := .merged k
    committed := true }

/-- The segments of all runs with their headers. -/
def inheritedSegments (runs : List (TablePersist × List PersistSegment)) :
    List (TablePersist × PersistSegment) :=
  runs.flatMap (fun run => run.2.map (fun seg => (run.1, seg)))

/-- The table on a child forked at `fork`, whose first transaction committed at `forkMicros`. -/
def childTable (fork : ForkPoint) (forkMicros : Int) : Store R V :=
  { Store.init with
    commitSeqCounter := fork.commitSeqNum + 2
    commitTxLog := [⟨fork.commitSeqNum + 1, forkMicros⟩] }

/-- The child with the copied rows. The `ON CONFLICT DO NOTHING` of the inserts keeps the first row of a
    uuid; the purge watermark is seeded at the fork. -/
def Store.withInherited (p : Store R V) (fork : ForkPoint) (forkMicros : Int)
    (baseline : Option (TableSnapshot R V)) (runs : List (TablePersist × List PersistSegment)) : Store R V :=
  let segments := inheritedSegments runs
  { childTable fork forkMicros with
    tablePersists := Keyed.insertAllNew TablePersist.uuid [] (runs.map (fun run => inheritHeader fork run.1))
    persistSegments := Keyed.insertAllNew PersistSegment.uuid []
      (segments.zipIdx.map (fun x => inheritSegment fork x.1.1 x.1.2 x.2))
    objects := fun
      | .merged k  => ((segments[k]?).map (fun x => p.objects x.2.objectUri)).getD []
      | .segment _ => []
    mergedFiles := segments.length
    snapshots := baseline.toList
    purges := [fork.commitSeqNum] }

/-- `materialize_fork_cold_references`: `none` when a baseline was adopted and no header was written. -/
def Store.materializeForkColdReferences (p : Store R V) (fork : ForkPoint) (forkMicros : Int) :
    Option (Store R V) :=
  let baseline := p.inheritedSnapshot fork
  let runs := p.inheritedRuns fork (baseline.map TableSnapshot.snapshottedAtMicros)
  if runs.isEmpty && baseline.isSome then none else some (p.withInherited fork forkMicros baseline runs)

/-- `create_branch` on one table: flush the parent up to the fork (`persist_branch`), then copy if the table
    is among those the parent lists now. -/
def Store.createBranch [DecidableEq R] (cfg : PersistConfig R V) (s : Store R V) (fork : ForkPoint)
    (step1Now forkMicros : Int) (listed : Bool) : Option (Store R V) :=
  if listed then
    (s.persistLocked cfg (some fork.commitMicros) step1Now).materializeForkColdReferences fork forkMicros
  else some (childTable fork forkMicros)

/-! ## The copied rows -/

section Runs

variable {p : Store R V} {fork : ForkPoint} {baseline : Option Int}

theorem Store.mem_segmentsAtFork {header : TablePersist} {seg : PersistSegment} :
    seg ∈ p.segmentsAtFork fork header ↔ seg ∈ p.persistSegments ∧ seg.uuid.parent = header.uuid ∧
      seg.committed = true ∧ seg.minCommitSeqNum ≤ fork.commitSeqNum := by
  simp only [segmentsAtFork, List.mem_insertionSort, List.mem_filter, Bool.and_eq_true, decide_eq_true_eq,
    and_assoc]

theorem Store.mem_inheritedRuns {run : TablePersist × List PersistSegment} :
    run ∈ p.inheritedRuns fork baseline ↔
      (run.1 ∈ p.tablePersists ∧ run.1.committed = true ∧ headerFrom baseline ≤ run.1.persistedAtMicros) ∧
        ((run.1.persistedAtMicros ≤ satPred (segmentFrom baseline) ∧ run.2 = []) ∨
          (satPred (segmentFrom baseline) < run.1.persistedAtMicros ∧ run.2 ≠ [] ∧
            run.2 = p.segmentsAtFork fork run.1)) := by
  obtain ⟨header, segs⟩ := run
  simp only [inheritedRuns, List.mem_filterMap, List.mem_insertionSort, List.mem_filter, Bool.and_eq_true,
    decide_eq_true_eq]
  constructor
  · rintro ⟨h, hmem, hsome⟩
    split at hsome
    · cases hsome
      exact ⟨hmem, .inl ⟨‹_›, rfl⟩⟩
    · split at hsome
      · cases hsome
      · cases hsome
        exact ⟨hmem, .inr ⟨by omega, ‹_›, rfl⟩⟩
  · rintro ⟨hmem, ⟨hle, rfl⟩ | ⟨hlt, hne, rfl⟩⟩
    · exact ⟨header, hmem, if_pos hle⟩
    · exact ⟨header, hmem, by rw [if_neg (by omega), if_neg hne]⟩

theorem satPred_segmentFrom_lt {at' : Int} (hbase : ∀ w, baseline = some w → w < i64Max) (hpos : 0 < at') :
    satPred (segmentFrom baseline) < at' ↔ ∀ w, baseline = some w → w < at' := by
  cases baseline with
  | none =>
      simp only [segmentFrom, satPred, i64Min, Option.map_none, Option.getD_none, reduceCtorEq, false_implies,
        implies_true, iff_true]
      omega
  | some w =>
      have hw := hbase w rfl
      simp only [segmentFrom, satPred, satSucc, Option.map_some, Option.getD_some, Option.some.injEq, forall_eq']
      unfold i64Max i64Min at *
      omega

/-- An inherited segment is a committed one of its header that begins at or below the fork. -/
theorem Store.of_mem_inheritedSegments {header : TablePersist} {seg : PersistSegment}
    (h : (header, seg) ∈ inheritedSegments (p.inheritedRuns fork baseline)) :
    (∃ segs, (header, segs) ∈ p.inheritedRuns fork baseline) ∧ header ∈ p.tablePersists ∧
      seg ∈ p.segmentsAtFork fork header ∧ satPred (segmentFrom baseline) < header.persistedAtMicros := by
  simp only [inheritedSegments, List.mem_flatMap, List.mem_map, Prod.mk.injEq, exists_eq_right_right] at h
  obtain ⟨⟨h, segs⟩, hrun, hseg, rfl⟩ := h
  obtain ⟨⟨hmem, -, -⟩, ⟨-, hnil⟩ | ⟨hlt, -, hsegs⟩⟩ := mem_inheritedRuns.mp hrun
  · simp only at hseg hnil
    rw [hnil] at hseg
    cases hseg
  · exact ⟨⟨segs, hrun⟩, hmem, hsegs ▸ hseg, hlt⟩

/-- Under a header past the baseline all of them are inherited. -/
theorem Store.mem_inheritedSegments (hbase : ∀ w, baseline = some w → w < i64Max)
    {header : TablePersist} (hmem : header ∈ p.tablePersists) (hcommitted : header.committed = true)
    (hpos : 0 < header.persistedAtMicros) (hpast : ∀ w, baseline = some w → w < header.persistedAtMicros)
    {seg : PersistSegment} (hseg : seg ∈ p.segmentsAtFork fork header) :
    (header, seg) ∈ inheritedSegments (p.inheritedRuns fork baseline) := by
  simp only [inheritedSegments, List.mem_flatMap, List.mem_map, Prod.mk.injEq, exists_eq_right_right]
  refine ⟨(header, p.segmentsAtFork fork header), mem_inheritedRuns.mpr ⟨⟨hmem, hcommitted, ?_⟩, .inr ?_⟩,
    hseg, rfl⟩
  · cases baseline with
    | none =>
        simp only [headerFrom, Option.getD_none, i64Min]
        omega
    | some w => exact (hpast w rfl).le
  · exact ⟨(satPred_segmentFrom_lt hbase hpos).mpr hpast, List.ne_nil_of_mem hseg, rfl⟩

end Runs

/-! ## The views of the child -/

/-- A view of the child against the parent's view it was copied from. -/
structure Inherits (fork : ForkPoint) (w v : SegmentView R V) : Prop where
  rows : v.rows = w.rows
  minTxCommitMicros : v.minTxCommitMicros = w.minTxCommitMicros
  maxTxCommitMicros : v.maxTxCommitMicros = w.maxTxCommitMicros
  minCommitSeqNum : v.minCommitSeqNum = w.minCommitSeqNum
  maxCommitSeqNum : v.maxCommitSeqNum = min w.maxCommitSeqNum fork.commitSeqNum
  logKind : v.uuid.parent.logKind = w.uuid.parent.logKind

/-- What the child reads of a segment: the parent's rows up to the fork. -/
theorem Inherits.mem_read {fork : ForkPoint} {w v : SegmentView R V} (h : Inherits fork w v) {e : LogEntry R V} :
    e ∈ v.read ↔ e ∈ w.read ∧ e.commitSeqNum ≤ fork.commitSeqNum := by
  simp only [SegmentView.read, List.mem_filter, decide_eq_true_eq, h.rows, h.maxCommitSeqNum, le_min_iff, and_assoc]

section Child

variable (p : Store R V) (fork : ForkPoint) (forkMicros : Int) (baseline : Option (TableSnapshot R V))
  {runs : List (TablePersist × List PersistSegment)}

/-- A segment row of the child is the copy of one of the parent's. -/
theorem Store.mem_inheritedRows {seg' : PersistSegment}
    (h : seg' ∈ (p.withInherited fork forkMicros baseline runs).persistSegments) :
    ∃ header seg k, (inheritedSegments runs)[k]? = some (header, seg) ∧ seg' = inheritSegment fork header seg k := by
  rcases Keyed.mem_insertAllNew h with h | h
  · cases h
  · obtain ⟨⟨⟨header, seg⟩, k⟩, hmem, rfl⟩ := List.mem_map.mp h
    exact ⟨header, seg, k, List.mem_zipIdx_iff_getElem?.mp hmem, rfl⟩

theorem Store.segmentRows_inheritSegment {header : TablePersist} {seg : PersistSegment} {k : Nat}
    (hk : (inheritedSegments runs)[k]? = some (header, seg)) :
    (p.withInherited fork forkMicros baseline runs).segmentRows (inheritSegment fork header seg k) =
      p.segmentRows seg := by
  simp only [segmentRows, inheritSegment, withInherited, hk, Option.map_some, Option.getD_some]

theorem Store.inherits_view {header : TablePersist} {seg : PersistSegment} {k : Nat}
    (hk : (inheritedSegments runs)[k]? = some (header, seg)) (hkind : header.uuid = seg.uuid.parent) :
    Inherits fork (p.view seg)
      ((p.withInherited fork forkMicros baseline runs).view (inheritSegment fork header seg k)) where
  rows := p.segmentRows_inheritSegment fork forkMicros baseline hk
  minTxCommitMicros := rfl
  maxTxCommitMicros := rfl
  minCommitSeqNum := rfl
  maxCommitSeqNum := rfl
  logKind := by
    show header.uuid.logKind = seg.uuid.parent.logKind
    rw [hkind]

theorem Store.exists_inheritedHeader {run : TablePersist × List PersistSegment} (hrun : run ∈ runs) :
    ∃ q ∈ (p.withInherited fork forkMicros baseline runs).tablePersists, q.uuid = inheritedUuid run.1 ∧
      q.persistedAtMicros = run.1.persistedAtMicros := by
  have hmem : inheritHeader fork run.1 ∈ runs.map (fun run => inheritHeader fork run.1) := List.mem_map_of_mem hrun
  obtain ⟨q, hq, hu⟩ : ∃ q ∈ (p.withInherited fork forkMicros baseline runs).tablePersists,
      q.uuid = inheritedUuid run.1 := Keyed.exists_mem_insertAllNew hmem
  refine ⟨q, hq, hu, ?_⟩
  -- The uuid of a copied header determines its `persisted_at_micros`.
  rcases Keyed.mem_insertAllNew hq with hq | hq
  · cases hq
  · obtain ⟨run', -, rfl⟩ := List.mem_map.mp hq
    exact congrArg PersistUuid.effectiveTarget hu

theorem Store.mem_inheritedHeaders {q : TablePersist}
    (hq : q ∈ (p.withInherited fork forkMicros baseline runs).tablePersists) :
    ∃ run ∈ runs, q = inheritHeader fork run.1 := by
  rcases Keyed.mem_insertAllNew hq with hq | hq
  · cases hq
  · obtain ⟨run, hrun, rfl⟩ := List.mem_map.mp hq
    exact ⟨run, hrun, rfl⟩

end Child

/-! ## The child of a flushed parent -/

section Fork

variable [DecidableEq R] {p : Store R V} {H : History R V} (hinv : StoredInv p H) {fork : ForkPoint}
  (hpersisted : ∀ e ∈ H.entries, e.commitSeqNum ≤ fork.commitSeqNum → p.PersistedEntry e)
  {forkMicros : Int} (hclock : p.ClockAdmits forkMicros) (hpos : 0 ≤ fork.commitSeqNum) {child : Store R V}
  (hchild : p.materializeForkColdReferences fork forkMicros = some child)

/-- The position of the snapshot the child adopts. -/
def Store.baselineAt (p : Store R V) (fork : ForkPoint) : Option Int :=
  (p.inheritedSnapshot fork).map TableSnapshot.snapshottedAtMicros

include hchild in
omit [DecidableEq R] in
theorem Store.child_eq :
    child = p.withInherited fork forkMicros (p.inheritedSnapshot fork) (p.inheritedRuns fork (p.baselineAt fork)) ∧
      ((p.inheritedSnapshot fork).isSome → p.inheritedRuns fork (p.baselineAt fork) ≠ []) := by
  unfold materializeForkColdReferences at hchild
  simp only [Option.ite_none_left_eq_some, Option.some.injEq] at hchild
  obtain ⟨hruns, rfl⟩ := hchild
  refine ⟨rfl, fun hsome hnil => hruns ?_⟩
  simp only [Bool.and_eq_true, List.isEmpty_iff]
  exact ⟨hnil, hsome⟩

include hinv

theorem StoredInv.of_inheritedSnapshot {n : TableSnapshot R V} (h : p.inheritedSnapshot fork = some n) :
    n ∈ p.snapshots ∧ n.snapshottedAtMicros < i64Max ∧ n.commitSeqNum ≤ fork.commitSeqNum := by
  obtain ⟨hn, -, hseq⟩ := hinv.branch.of_pickSnapshotAsOf h
  exact ⟨hn, hinv.branch.snapshottedAt_lt hn, hseq _ rfl⟩

theorem StoredInv.baselineAt_lt {w : Int} (h : p.baselineAt fork = some w) : w < i64Max := by
  obtain ⟨n, hn, rfl⟩ := Option.map_eq_some_iff.mp h
  exact (hinv.of_inheritedSnapshot hn).2.1

include hchild

theorem StoredInv.exists_parentView {v : SegmentView R V} (hv : v ∈ child.views) :
    ∃ w ∈ p.views, Inherits fork w v ∧ w.minCommitSeqNum ≤ fork.commitSeqNum ∧
      ∃ q ∈ child.tablePersists, q.uuid = v.uuid.parent ∧ ∀ e ∈ v.rows, e.commitMicros ≤ q.persistedAtMicros := by
  obtain ⟨rfl, -⟩ := Store.child_eq hchild
  obtain ⟨seg', hseg', rfl⟩ := List.mem_map.mp hv
  obtain ⟨header, seg, k, hk, rfl⟩ := p.mem_inheritedRows fork forkMicros _ hseg'
  obtain ⟨⟨segs, hrun⟩, hheader, hseg, -⟩ := Store.of_mem_inheritedSegments (List.mem_of_getElem? hk)
  obtain ⟨hmem, hparent, -, hmin⟩ := Store.mem_segmentsAtFork.mp hseg
  have hview : p.view seg ∈ p.views := List.mem_map_of_mem hmem
  obtain ⟨q, hq, hu, hat⟩ := p.exists_inheritedHeader fork forkMicros (p.inheritedSnapshot fork) hrun
  have hinherits := p.inherits_view fork forkMicros (p.inheritedSnapshot fork) hk hparent.symm
  refine ⟨p.view seg, hview, hinherits, hmin, q, hq, hu, ?_⟩
  intro e he
  rw [hinherits.rows] at he
  exact hat ▸ hinv.headers.covers _ hview header hheader hparent.symm e he

theorem StoredInv.exists_parentHeader {v : SegmentView R V} (hv : v ∈ child.views) :
    ∃ w ∈ p.views, Inherits fork w v ∧ ∃ header ∈ p.tablePersists, header.uuid = w.uuid.parent ∧
      ∀ base, p.baselineAt fork = some base → base < header.persistedAtMicros := by
  obtain ⟨rfl, -⟩ := Store.child_eq hchild
  obtain ⟨seg', hseg', rfl⟩ := List.mem_map.mp hv
  obtain ⟨header, seg, k, hk, rfl⟩ := p.mem_inheritedRows fork forkMicros _ hseg'
  obtain ⟨-, hheader, hseg, hpast⟩ := Store.of_mem_inheritedSegments (List.mem_of_getElem? hk)
  obtain ⟨hmem, hparent, -, -⟩ := Store.mem_segmentsAtFork.mp hseg
  refine ⟨p.view seg, List.mem_map_of_mem hmem, p.inherits_view fork forkMicros (p.inheritedSnapshot fork) hk
    hparent.symm, header, hheader, hparent.symm, ?_⟩
  exact (satPred_segmentFrom_lt (fun _ h => hinv.baselineAt_lt h) (hinv.headers.positive header hheader)).mp hpast

/-- **A copy.** What a segment under a header past the baseline holds up to the fork is in a view of the child. -/
theorem StoredInv.exists_copy {w : SegmentView R V} (hw : w ∈ p.views) {header : TablePersist}
    (hheader : header ∈ p.tablePersists) (hparent : header.uuid = w.uuid.parent)
    (hpast : ∀ base, p.baselineAt fork = some base → base < header.persistedAtMicros) {e : LogEntry R V}
    (hew : e ∈ w.rows) (hle : e.commitSeqNum ≤ fork.commitSeqNum) : ∃ v ∈ child.views, e ∈ v.read := by
  have hexact := hinv.segments.exact_of_mem hw
  obtain ⟨seg, hseg, rfl⟩ := List.mem_map.mp hw
  replace hparent : header.uuid = seg.uuid.parent := hparent
  have hmin : seg.minCommitSeqNum ≤ fork.commitSeqNum := (hexact.seq e hew).1.trans hle
  have hsegs : seg ∈ p.segmentsAtFork fork header :=
    Store.mem_segmentsAtFork.mpr ⟨hseg, hparent.symm, hinv.segments.committed seg hseg, hmin⟩
  have hinherited := Store.mem_inheritedSegments (fun _ h => hinv.baselineAt_lt h) hheader
    (hinv.parents header hheader) (hinv.headers.positive header hheader) hpast hsegs
  obtain ⟨k, hk⟩ := List.mem_iff_getElem?.mp hinherited
  obtain ⟨rfl, -⟩ := Store.child_eq hchild
  -- The copy of this segment, or of one with the same uuid on the child: that is the same segment.
  have hcopy : inheritSegment fork header seg k ∈ (inheritedSegments (p.inheritedRuns fork
      (p.baselineAt fork))).zipIdx.map (fun x => inheritSegment fork x.1.1 x.1.2 x.2) :=
    List.mem_map.mpr ⟨((header, seg), k), List.mem_zipIdx_iff_getElem?.mpr hk, rfl⟩
  obtain ⟨seg', hseg', hu⟩ : ∃ seg' ∈ (p.withInherited fork forkMicros (p.inheritedSnapshot fork)
      (p.inheritedRuns fork (p.baselineAt fork))).persistSegments,
        seg'.uuid = (inheritSegment fork header seg k).uuid := Keyed.exists_mem_insertAllNew hcopy
  obtain ⟨header₂, seg₂, k₂, hk₂, rfl⟩ := p.mem_inheritedRows fork forkMicros _ hseg'
  obtain ⟨-, hheader₂, hsegs₂, -⟩ := Store.of_mem_inheritedSegments (List.mem_of_getElem? hk₂)
  obtain ⟨hmem₂, hparent₂, -, -⟩ := Store.mem_segmentsAtFork.mp hsegs₂
  have hsame : inheritedUuid header₂ = inheritedUuid header ∧ seg₂.uuid.chunkIdx = seg.uuid.chunkIdx :=
    SegmentUuid.mk.inj hu
  obtain ⟨hat₂, hkind₂⟩ := PersistUuid.mk.inj hsame.1
  have hheaders := hinv.headers.distinct header₂ hheader₂ header hheader hat₂ hkind₂
  have huuid : seg₂.uuid = seg.uuid := by
    have hparents : seg₂.uuid.parent = seg.uuid.parent := by rw [hparent₂, hheaders, hparent]
    cases hs₂ : seg₂.uuid
    cases hs : seg.uuid
    rw [hs₂, hs] at hparents hsame
    rw [SegmentUuid.mk.injEq]
    exact ⟨hparents, hsame.2⟩
  obtain rfl := hinv.uuids.eq_of_uuid hmem₂ hseg huuid
  have hinherits := p.inherits_view fork forkMicros (p.inheritedSnapshot fork) hk₂ hparent₂.symm
  refine ⟨_, List.mem_map_of_mem hseg', hinherits.mem_read.mpr ⟨?_, hle⟩⟩
  rw [hexact.read_eq]
  exact hew

include hpersisted

/-- **Nothing is missing.** What the parent committed at or below the fork and past the baseline is in a view
    of the child. -/
theorem StoredInv.exists_childView {e : LogEntry R V} (he : e ∈ H.entries)
    (hle : e.commitSeqNum ≤ fork.commitSeqNum) (hpast : ∀ w, p.baselineAt fork = some w → w < e.commitMicros) :
    ∃ v ∈ child.views, e ∈ v.read := by
  obtain ⟨w, hw, hew⟩ := (hinv.stored_iff e he).mp (hpersisted e he hle)
  obtain ⟨header, hheader, hparent⟩ := hinv.segments.ok.parent_of_view hw
  have hcover := hinv.headers.covers _ hw header hheader hparent e hew
  exact hinv.exists_copy hchild hw hheader hparent (fun base h => lt_of_lt_of_le (hpast base h) hcover) hew hle

/-- Everything at or below the fork is at or below the child's persist watermark. -/
theorem StoredInv.child_persisted {e : LogEntry R V} (he : e ∈ H.entries)
    (hle : e.commitSeqNum ≤ fork.commitSeqNum) : child.PersistedEntry e := by
  by_cases hfold : ∃ w, p.baselineAt fork = some w ∧ e.commitMicros ≤ w
  · obtain ⟨w, hw, hew⟩ := hfold
    obtain ⟨rfl, hruns⟩ := Store.child_eq hchild
    have hsome : (p.inheritedSnapshot fork).isSome := by
      obtain ⟨n, hn, -⟩ := Option.map_eq_some_iff.mp hw
      rw [hn]
      rfl
    obtain ⟨run, hrun⟩ := List.exists_mem_of_ne_nil _ (hruns hsome)
    obtain ⟨⟨-, -, hfrom⟩, -⟩ := Store.mem_inheritedRuns.mp hrun
    obtain ⟨q, hq, -, hat⟩ := p.exists_inheritedHeader fork forkMicros (p.inheritedSnapshot fork) hrun
    obtain ⟨run', -, hrow⟩ := p.mem_inheritedHeaders fork forkMicros _ hq
    obtain ⟨l, hl, hql⟩ := Store.exists_persistWatermark_of_mem hq (hrow ▸ rfl)
    rw [hw] at hfrom
    simp only [headerFrom, Option.getD_some] at hfrom
    exact ⟨l, hl, by omega⟩
  · push Not at hfold
    obtain ⟨v, hv, hev⟩ := hinv.exists_childView hpersisted hchild he hle hfold
    obtain ⟨-, -, -, -, q, hq, -, hcover⟩ := hinv.exists_parentView hchild hv
    have heq := (Store.child_eq hchild).1
    rw [heq] at hq
    obtain ⟨run', -, hrow⟩ := p.mem_inheritedHeaders fork forkMicros _ hq
    rw [← heq] at hq
    obtain ⟨l, hl, hql⟩ := Store.exists_persistWatermark_of_mem hq (hrow ▸ rfl)
    exact ⟨l, hl, (hcover e (List.mem_of_mem_filter hev)).trans hql⟩

theorem StoredInv.child_settles {seq : Int} (hlt : seq < fork.commitSeqNum + 2) :
    child.Settles (H.log.cut fork.commitSeqNum) seq := by
  have hcounter : child.commitSeqCounter = fork.commitSeqNum + 2 := by rw [(Store.child_eq hchild).1]; rfl
  refine ⟨hcounter ▸ hlt, ?_⟩
  intro e he _
  obtain ⟨hent, hle⟩ := BranchLog.mem_cut.mp he
  exact hinv.child_persisted hpersisted hchild hent hle

theorem StoredInv.child_snapshot {n : TableSnapshot R V} (hn : p.inheritedSnapshot fork = some n) :
    BranchSnapshot child (H.log.cut fork.commitSeqNum) n := by
  obtain ⟨hmem, -, hseq⟩ := hinv.of_inheritedSnapshot hn
  have hsnap := hinv.branch.snapshots n hmem
  constructor
  case settled => exact hinv.child_settles hpersisted hchild (by omega)
  case placed =>
    -- Every copied header is at or past the snapshot, and at least one was copied.
    obtain ⟨heq, hruns⟩ := Store.child_eq hchild
    obtain ⟨run, hrun⟩ := List.exists_mem_of_ne_nil _ (hruns (hn ▸ rfl))
    obtain ⟨⟨-, -, hfrom⟩, -⟩ := Store.mem_inheritedRuns.mp hrun
    have hbase : p.baselineAt fork = some n.snapshottedAtMicros := by rw [Store.baselineAt, hn]; rfl
    rw [hbase] at hfrom
    simp only [headerFrom, Option.getD_some] at hfrom
    obtain ⟨q, hq, -, hat⟩ := p.exists_inheritedHeader fork forkMicros (p.inheritedSnapshot fork) hrun
    obtain ⟨run', -, hrow⟩ := p.mem_inheritedHeaders fork forkMicros _ hq
    obtain ⟨l, hl, hql⟩ := Store.exists_persistWatermark_of_mem hq (hrow ▸ rfl)
    exact ⟨l, heq ▸ hl, by omega⟩
  case reaches => exact fun e he hle => hsnap.reaches e (BranchLog.mem_cut.mp he).1 hle

omit hpersisted in
/-- What the inherited snapshot folded lies at or below the fork. -/
theorem StoredInv.child_replays (hreplay : p.SnapshotsReplay H.log) :
    child.SnapshotsReplay (H.log.cut fork.commitSeqNum) := by
  intro n hn
  rw [(Store.child_eq hchild).1] at hn
  obtain ⟨hmem, -, hseq⟩ := hinv.of_inheritedSnapshot (Option.mem_toList.mp hn)
  have hupTo : (H.log.cut fork.commitSeqNum).upTo n.snapshottedAtMicros = H.log.upTo n.snapshottedAtMicros := by
    show (H.entries.filter _).filter _ = H.entries.filter _
    rw [List.filter_filter]
    refine List.filter_congr (fun e he => ?_)
    by_cases hle : e.commitMicros ≤ n.snapshottedAtMicros
    · simp [hle, ((hinv.branch.snapshots n hmem).reaches e he hle).trans hseq]
    · simp [hle]
  refine ⟨(hreplay n hmem).nodup, ?_⟩
  rw [hupTo]
  exact (hreplay n hmem).replay

include hclock hpos

/-- **The child of a flushed parent** satisfies the branch invariant for the parent's log cut at the fork. -/
theorem forkChild_inv : BranchInv child (H.log.cut fork.commitSeqNum) (p.baselineAt fork) := by
  have heq := (Store.child_eq hchild).1
  have hcounter : child.commitSeqCounter = fork.commitSeqNum + 2 := by rw [heq]; rfl
  have hlog : child.commitTxLog = [⟨fork.commitSeqNum + 1, forkMicros⟩] := by rw [heq]; rfl
  have hpurges : child.purges = [fork.commitSeqNum] := by rw [heq]; rfl
  have hsnaps : child.snapshots = (p.inheritedSnapshot fork).toList := by rw [heq]; rfl
  have hcommitted : ∀ q ∈ child.tablePersists, q.committed = true := by
    intro q hq
    rw [heq] at hq
    obtain ⟨run, -, rfl⟩ := p.mem_inheritedHeaders fork forkMicros _ hq
    rfl
  have hread : ∀ v ∈ child.views, ∀ e ∈ v.read, e ∈ H.entries ∧ e.commitSeqNum ≤ fork.commitSeqNum ∧
      e.kind = v.uuid.parent.logKind := by
    intro v hv e he
    obtain ⟨w, hw, hinherits, -, -⟩ := hinv.exists_parentView hchild hv
    obtain ⟨hew, hle⟩ := hinherits.mem_read.mp he
    obtain ⟨⟨hent, hkind⟩, -⟩ := hinv.branch.stored w hw e hew
    exact ⟨hent, hle, hkind.trans hinherits.logKind.symm⟩
  have hsettles : ∀ {seq}, seq < fork.commitSeqNum + 2 → child.Settles (H.log.cut fork.commitSeqNum) seq :=
    fun hlt => hinv.child_settles hpersisted hchild hlt
  have hmicros : ∀ e ∈ H.entries, e.commitMicros ≤ forkMicros := by
    intro e he
    obtain ⟨c, hc, hle⟩ := hinv.branch.clock e he
    exact hle.trans (hclock.2 c hc)
  constructor
  case nonneg => omega
  case allocated =>
    intro e he
    have := (BranchLog.mem_cut.mp he).2
    omega
  case clock =>
    intro e he
    rw [hlog]
    exact ⟨_, List.mem_singleton_self _, hmicros e (BranchLog.mem_cut.mp he).1⟩
  case mem_hot =>
    intro e
    have hhot : child.hot = [] := by rw [heq]; rfl
    rw [hhot, hpurges, BranchLog.mem_cut]
    constructor
    · exact fun he => absurd he List.not_mem_nil
    · rintro ⟨⟨-, hle⟩, hlt⟩
      exact absurd (hlt _ (List.mem_singleton_self _)) (by omega)
  case parents => exact hcommitted
  case segments =>
    constructor
    case committed =>
      intro seg hseg
      rw [heq] at hseg
      obtain ⟨header, seg, k, hk, rfl⟩ := p.mem_inheritedRows fork forkMicros _ hseg
      rfl
    case parent =>
      intro seg hseg
      obtain ⟨-, -, -, -, q, hq, hu, -⟩ := hinv.exists_parentView hchild (List.mem_map_of_mem hseg)
      exact ⟨q, hq, hu⟩
    case located =>
      intro seg hseg
      rw [heq] at hseg ⊢
      obtain ⟨header, seg, k, hk, rfl⟩ := p.mem_inheritedRows fork forkMicros _ hseg
      exact .inr ⟨k, (List.getElem?_eq_some_iff.mp hk).1, rfl⟩
    case counted =>
      intro seg hseg
      rw [heq] at hseg ⊢
      obtain ⟨header, seg, k, hk, rfl⟩ := p.mem_inheritedRows fork forkMicros _ hseg
      rw [p.segmentRows_inheritSegment fork forkMicros _ hk]
      obtain ⟨-, -, hsegs, -⟩ := Store.of_mem_inheritedSegments (List.mem_of_getElem? hk)
      exact hinv.segments.counted seg (Store.mem_segmentsAtFork.mp hsegs).1
    case nonempty =>
      intro v hv
      obtain ⟨w, hw, hinherits, -, -⟩ := hinv.exists_parentView hchild hv
      rw [hinherits.rows]
      exact hinv.segments.ok.nonempty w hw
  case bounded =>
    intro v hv
    obtain ⟨w, hw, hinherits, -, -⟩ := hinv.exists_parentView hchild hv
    have hbounds := hinv.branch.bounded w hw
    constructor
    case micros =>
      intro e he
      rw [hinherits.minTxCommitMicros, hinherits.maxTxCommitMicros]
      exact hbounds.micros e (hinherits.mem_read.mp he).1
    case seq =>
      intro e he
      rw [hinherits.minCommitSeqNum]
      exact hbounds.seq e (hinherits.mem_read.mp he).1
    case inRange =>
      rw [hinherits.minTxCommitMicros, hinherits.maxTxCommitMicros]
      exact hbounds.inRange
  case stored =>
    intro v hv e he
    obtain ⟨hent, hle, hkind⟩ := hread v hv e he
    exact ⟨⟨BranchLog.mem_cut.mpr ⟨hent, hle⟩, hkind⟩, hinv.child_persisted hpersisted hchild hent hle⟩
  case complete =>
    intro e he _ hfloor
    obtain ⟨hent, hle⟩ := BranchLog.mem_cut.mp he
    exact hinv.exists_childView hpersisted hchild hent hle hfloor
  case ceilings =>
    intro v hv
    obtain ⟨w, hw, hinherits, -, -⟩ := hinv.exists_parentView hchild hv
    apply hsettles
    rw [hinherits.maxCommitSeqNum]
    omega
  case clipped =>
    intro v hv
    obtain ⟨w, hw, hinherits, hmin, -⟩ := hinv.exists_parentView hchild hv
    have hexact := hinv.segments.exact_of_mem hw
    by_cases hle : w.maxCommitSeqNum ≤ fork.commitSeqNum
    · left
      rw [SegmentView.read, hinherits.rows, hinherits.maxCommitSeqNum, min_eq_left hle]
      exact hexact.read_eq
    · right
      obtain ⟨e, he, hseq⟩ := hinv.segments.exists_minCommitSeqNum hw
      refine ⟨?_, fork.commitSeqNum, hpurges ▸ List.mem_singleton_self _, ?_⟩
      · apply List.ne_nil_of_mem (a := e)
        rw [hinherits.mem_read, hexact.read_eq]
        exact ⟨he, by omega⟩
      · rw [hinherits.maxCommitSeqNum]
        omega
  case watermark =>
    intro l hl
    obtain ⟨hmem, -⟩ := List.max?_eq_some_iff.mp hl
    obtain ⟨q, hq, rfl⟩ := List.mem_map.mp hmem
    have hq := (List.mem_filter.mp hq).1
    rw [heq] at hq
    obtain ⟨run, hrun, rfl⟩ := p.mem_inheritedHeaders fork forkMicros _ hq
    obtain ⟨⟨hheader, hflag, -⟩, -⟩ := Store.mem_inheritedRuns.mp hrun
    obtain ⟨l, hl, hle⟩ := Store.exists_persistWatermark_of_mem hheader hflag
    obtain ⟨hrange, c, hc, hlc⟩ := hinv.branch.watermark l hl
    have hcm := hclock.2 c hc
    have hpositive := hinv.headers.positive run.1 hheader
    show (0 < run.1.persistedAtMicros ∧ run.1.persistedAtMicros < i64Max) ∧ _
    refine ⟨⟨hpositive, by omega⟩, ?_⟩
    rw [hlog]
    refine ⟨_, List.mem_singleton_self _, ?_⟩
    show run.1.persistedAtMicros ≤ forkMicros
    omega
  case snapshots =>
    intro n hn
    rw [hsnaps, Option.mem_toList] at hn
    exact hinv.child_snapshot hpersisted hchild hn
  case ordered =>
    rw [hsnaps]
    cases p.inheritedSnapshot fork with
    | none => exact List.Pairwise.nil
    | some n => exact List.pairwise_singleton _ _
  case fences =>
    intro pu hpu
    rw [hpurges] at hpu
    rw [List.mem_singleton.mp hpu]
    exact hsettles (by omega)
  case based =>
    intro f hf
    obtain ⟨n, hn, rfl⟩ := Option.map_eq_some_iff.mp hf
    rw [hsnaps, hn]
    refine ⟨List.cons_ne_nil _ _, ?_⟩
    intro m hm
    rw [Option.toList_some, List.mem_singleton] at hm
    rw [hm]

end Fork

/-! ## Reads of a fresh child -/

section Read

variable [DecidableEq R]

/-- The log entries of the parent a fork inherits. -/
def History.atFork (H : History R V) (fork : ForkPoint) : List (LogEntry R V) :=
  H.entries.filter (fun e => decide (e.commitSeqNum ≤ fork.commitSeqNum))

/-- A `LatestSeq` read of the child returns the replay of what the parent committed at or below the fork, no
    row twice. -/
def Store.ReadsFork (child : Store R V) (H : History R V) (fork : ForkPoint) : Prop :=
  let rows := child.readData (.latestSeq (child.commitSeqCounter - 1))
  (rows.map Prod.fst).Nodup ∧ ∀ r v, (r, v) ∈ rows ↔ replayLog (H.atFork fork) r = some v

/-- The fork is at a committed transaction. -/
def History.Commits (H : History R V) (fork : ForkPoint) : Prop :=
  ∃ t ∈ H.txs, t.commitSeqNum = fork.commitSeqNum ∧ t.commitMicros = fork.commitMicros

omit [DecidableEq R] in
/-- A committed position orders the entries alike on both axes. -/
theorem History.Commits.commitMicros_le {H : History R V} {fork : ForkPoint} (h : H.Commits fork)
    {e : LogEntry R V} (he : e ∈ H.entries) (hle : e.commitSeqNum ≤ fork.commitSeqNum) :
    e.commitMicros ≤ fork.commitMicros := by
  obtain ⟨t, ht, hseq, hmicros⟩ := h
  obtain ⟨t', ht', het'⟩ := History.mem_entries.mp he
  rw [CommittedTx.commitSeqNum_of_mem het', ← hseq] at hle
  rw [CommittedTx.commitMicros_of_mem het', ← hmicros]
  rcases History.before_trichotomy ht' ht with rfl | hbefore | hbefore
  · exact le_refl _
  · exact hbefore.2.le
  · have := hbefore.1
    omega

omit [DecidableEq R] in
/-- A read at or past the fork sees all of what the fork inherits. -/
theorem History.visibleTo_cut (H : History R V) {fork : ForkPoint} {seq : Int} (hle : fork.commitSeqNum ≤ seq) :
    (H.log.cut fork.commitSeqNum).visibleTo (.latestSeq seq) = H.atFork fork := by
  refine List.filter_eq_self.mpr (fun e he => ?_)
  have := (BranchLog.mem_cut.mp he).2
  exact decide_eq_true (by omega)

theorem History.replayLog_atFork (H : History R V) (fork : ForkPoint) (r : R) :
    replayLog (H.atFork fork) r = newestEffect (H.atFork fork) r :=
  replay_apply (H.separated.mono (fun _ he => List.mem_of_mem_filter he)) r

/-- A read at or past the fork picks the inherited snapshot, if there is one. -/
theorem StoredInv.child_pickFor_isSome {p child : Store R V} {H : History R V} (hinv : StoredInv p H)
    {fork : ForkPoint} {forkMicros : Int}
    (hpersisted : ∀ e ∈ H.entries, e.commitSeqNum ≤ fork.commitSeqNum → p.PersistedEntry e)
    (hclock : p.ClockAdmits forkMicros) (hpos : 0 ≤ fork.commitSeqNum)
    (hchild : p.materializeForkColdReferences fork forkMicros = some child) {seq : Int}
    (hle : fork.commitSeqNum ≤ seq) :
    (p.baselineAt fork).isSome → (child.pickFor (.latestSeq seq)).isSome := by
  have hbranch := forkChild_inv hinv hpersisted hclock hpos hchild
  intro hsome
  obtain ⟨n, hn⟩ := Option.isSome_iff_exists.mp ((Option.isSome_map).symm.trans hsome)
  have hmem : n ∈ child.snapshots := by
    rw [(Store.child_eq hchild).1]
    exact Option.mem_toList.mpr hn
  refine hbranch.pickFor_isSome hmem (hbranch.snapshottedAt_lt hmem).le ?_
  intro seq' hseq'
  cases hseq'
  exact (hinv.of_inheritedSnapshot hn).2.2.trans hle

/-- **The flush.** After it everything at or below the fork is persisted. -/
theorem StoredInv.flush {cfg : PersistConfig R V} {s : Store R V} {H : History R V} (hinv : StoredInv s H)
    {fork : ForkPoint} (hfork : H.Commits fork) {step1Now forkMicros : Int}
    (hnc : NoClobber cfg s (.persist (some fork.commitMicros) step1Now)) (hclock : s.ClockAdmits forkMicros) :
    let p := s.persistLocked cfg (some fork.commitMicros) step1Now
    StoredInv p H ∧ (∀ e ∈ H.entries, e.commitSeqNum ≤ fork.commitSeqNum → p.PersistedEntry e) ∧
      p.ClockAdmits forkMicros ∧ 0 ≤ fork.commitSeqNum := by
  obtain ⟨t, ht, hseq, hmicros⟩ := id hfork
  have htarget : 0 < effectiveTarget (some fork.commitMicros) step1Now := by
    show 0 < fork.commitMicros
    exact hmicros ▸ (H.inRange t ht).1
  refine ⟨hinv.persistLocked hnc, ?_, ⟨hclock.1, ?_⟩, hseq ▸ (H.numbered t ht).1⟩
  · exact fun e he hle => hinv.branch.persisted_of_le_target hnc htarget he (hfork.commitMicros_le he hle)
  · rw [(s.coldOnly_persistLocked cfg (some fork.commitMicros) step1Now).commitTxLog]
    exact hclock.2

/-- A fork of a flushed parent reads right iff the leftovers of the inherited snapshot agree. -/
theorem StoredInv.readsFork_iff {p child : Store R V} {H : History R V} (hinv : StoredInv p H)
    (hreplay : p.SnapshotsReplay H.log) {fork : ForkPoint} {forkMicros : Int}
    (hpersisted : ∀ e ∈ H.entries, e.commitSeqNum ≤ fork.commitSeqNum → p.PersistedEntry e)
    (hclock : p.ClockAdmits forkMicros) (hpos : 0 ≤ fork.commitSeqNum)
    (hchild : p.materializeForkColdReferences fork forkMicros = some child) :
    child.ReadsFork H fork ↔ child.LeftoversAgree (.latestSeq (child.commitSeqCounter - 1)) [] := by
  have hbranch := forkChild_inv hinv hpersisted hclock hpos hchild
  have hcounter : child.commitSeqCounter = fork.commitSeqNum + 2 := by rw [(Store.child_eq hchild).1]; rfl
  have hle : fork.commitSeqNum ≤ child.commitSeqCounter - 1 := by omega
  have hfloor := hinv.child_pickFor_isSome hpersisted hclock hpos hchild hle
  rw [← hbranch.readData_iff (hinv.child_replays hchild hreplay) hfloor, H.visibleTo_cut hle]
  rfl

/-- **A fresh fork.** For every parent a run reaches (its Persists, the flush of the fork included, not
    clobbering, its Snapshots rewriting the partitions of the rows they replace), every committed fork position
    and every table: the child reads the replay of the parent's entries up to the fork exactly when the table was
    copied and the leftovers of the inherited snapshot agree with it, or it was not copied and there is nothing
    to read. -/
theorem forkReads_iff (cfg : PersistConfig R V) (ops : List (TableOp R V)) (s : Store R V)
    (hmeets : Runs.Meets (tableStep cfg) (TableKeepsRows cfg) Store.init ops)
    (hrun : Runs.run (tableStep cfg) Store.init ops = some s) (fork : ForkPoint)
    (hfork : (tableHistoryOf ops).Commits fork) (step1Now forkMicros : Int) (listed : Bool)
    (hflush : listed = true → NoClobber cfg s (.persist (some fork.commitMicros) step1Now))
    (hclock : s.ClockAdmits forkMicros) (child : Store R V)
    (hchild : s.createBranch cfg fork step1Now forkMicros listed = some child) :
    child.ReadsFork (tableHistoryOf ops) fork ↔
      (listed = true ∧ child.LeftoversAgree (.latestSeq (child.commitSeqCounter - 1)) []) ∨
        (listed = false ∧ ∀ r, replayLog ((tableHistoryOf ops).atFork fork) r = none) := by
  have hinv := storedInv_run (hmeets.mono (fun _ _ => TableKeepsRows.noClobber)) hrun
  have hreplay := tableReplays_run hmeets hrun
  cases listed with
  | false =>
      cases hchild
      -- A table that was not copied is empty.
      have hempty : (childTable fork forkMicros : Store R V).readData
          (.latestSeq ((childTable fork forkMicros : Store R V).commitSeqCounter - 1)) = [] := rfl
      unfold Store.ReadsFork
      simp only [hempty, List.map_nil, List.nodup_nil, List.not_mem_nil, false_iff, true_and, Bool.false_eq_true,
        false_and, false_or]
      exact forall_congr' (fun r => Option.eq_none_iff_forall_ne_some.symm)
  | true =>
      obtain ⟨hflushed, hpersisted, hclock', hpos⟩ := hinv.flush hfork (hflush rfl) hclock
      rw [hflushed.readsFork_iff (hreplay.persistLocked _ _) hpersisted hclock' hpos hchild]
      simp

/-- The upsert and the delete of a row are folded; the flush of the fork writes the upsert again. -/
def flushedUpsertRun : List (TableOp Nat Nat) :=
  [.op (.commit 10 (.single 1 (.upsert 5) 0)), .op (.commit 20 (.single 1 .delete 1)), .op (.persist none 25),
    .op (.snapshot none []), .op (.commit 30 (.single 2 (.upsert 7) 2))]

/-- On the child of a fork at the head the deleted row is back; and a table that was dropped on the parent
    after the fork position is not copied, and reads empty. -/
theorem forkedReads_not_replay :
    (∃ s child, Runs.run (tableStep oneByteRows) Store.init flushedUpsertRun = some s ∧
      s.createBranch oneByteRows ⟨2, 30⟩ 40 40 true = some child ∧
      (1, 5) ∈ child.readData (.latestSeq (child.commitSeqCounter - 1)) ∧
      replayLog ((tableHistoryOf flushedUpsertRun).atFork ⟨2, 30⟩) 1 = none) ∧
    (∃ s child, Runs.run (tableStep oneByteRows) Store.init flushedUpsertRun = some s ∧
      s.createBranch oneByteRows ⟨0, 10⟩ 40 40 false = some child ∧
      child.readData (.latestSeq (child.commitSeqCounter - 1)) = [] ∧
      replayLog ((tableHistoryOf flushedUpsertRun).atFork ⟨0, 10⟩) 1 = some 5) := by
  constructor
  · have hend : ((Runs.run (tableStep oneByteRows) Store.init flushedUpsertRun).bind (fun s =>
        (s.createBranch oneByteRows ⟨2, 30⟩ 40 40 true).map (fun child =>
          decide ((1, 5) ∈ child.readData (.latestSeq (child.commitSeqCounter - 1)))))) = some true := by
      decide +kernel
    obtain ⟨s, hrun, hs⟩ := Option.bind_eq_some_iff.mp hend
    obtain ⟨child, hchild, hread⟩ := Option.map_eq_some_iff.mp hs
    exact ⟨s, child, hrun, hchild, of_decide_eq_true hread, by decide +kernel⟩
  · obtain ⟨s, hrun⟩ : ∃ s, Runs.run (tableStep oneByteRows) Store.init flushedUpsertRun = some s :=
      Option.isSome_iff_exists.mp (by decide +kernel)
    exact ⟨s, childTable ⟨0, 10⟩ 40, hrun, rfl, rfl, by decide +kernel⟩

/-- Two rounds of the lifecycle, a hot commit and a fork below it, in the middle of a segment. -/
def forkedInsideRun : List (TableOp Nat Nat) :=
  [.op (.commit 10 (.single 1 (.upsert 5) 0)), .op (.commit 20 (.single 1 .delete 1)), .op (.persist none 25),
    .op (.snapshot none []), .op .purge, .op (.commit 30 (.single 2 (.upsert 7) 2)),
    .op (.commit 40 (.single 2 (.upsert 8) 3)), .op (.persist none 45), .op (.commit 50 (.single 3 (.upsert 9) 4))]

theorem forkedInsideRun_readsFork :
    ∃ s child, Runs.run (tableStep oneByteRows) Store.init forkedInsideRun = some s ∧
      s.createBranch oneByteRows ⟨2, 30⟩ 60 60 true = some child ∧
      child.ReadsFork (tableHistoryOf forkedInsideRun) ⟨2, 30⟩ := by
  have hend : ((Runs.run (tableStep oneByteRows) Store.init forkedInsideRun).bind (fun s =>
      (s.createBranch oneByteRows ⟨2, 30⟩ 60 60 true).map (fun child =>
        decide (NoClobber oneByteRows s (.persist (some 30) 60) ∧ s.ClockAdmits 60 ∧
          child.LeftoversAgree (.latestSeq (child.commitSeqCounter - 1)) [])))) = some true := by
    decide +kernel
  obtain ⟨s, hrun, hs⟩ := Option.bind_eq_some_iff.mp hend
  obtain ⟨child, hchild, hread⟩ := Option.map_eq_some_iff.mp hs
  obtain ⟨hflush, hclock, hagree⟩ := of_decide_eq_true hread
  have hfork : (tableHistoryOf forkedInsideRun).Commits ⟨2, 30⟩ := by
    refine ⟨_, List.mem_of_getElem? (i := 2) rfl, rfl, rfl⟩
  exact ⟨s, child, hrun, hchild, (forkReads_iff oneByteRows forkedInsideRun s (by decide +kernel) hrun ⟨2, 30⟩
    hfork 60 60 true (fun _ => hflush) hclock child hchild).mpr (.inl ⟨rfl, hagree⟩)⟩

end Read

end Penca
