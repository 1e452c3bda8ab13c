import Penca.Query.Resolve
import Penca.Store.State

/-!
# `Query.Plan` — planning and executing a read of one table

`plan()` captures the tier boundaries with four statements (the fused `hot_min` and snapshot pick, the
snapshot segment list, the fence and hot existence probe, the persist-segment window) and assembles a plan
from them; the merge layer then resolves the hot log above the fence, the fetched segments at or below it,
and adds the snapshot rows outside the exclusion set. Each statement is a function of the store it runs
on, so that a read can also be taken apart.

A snapshot is represented by its whole row where the source carries its uuid and fetches by it. Forks and
retention are not modelled: `base_cold_storage` and the retention floor are absent.
-/

namespace Penca

variable {R V : Type}

/-! ## The read position -/

/-- `ReadSnapshot` (without `OpenTx`). -/
inductive ReadSnapshot where
  | asOfMicros (ts : Int)
  | asOfSeq (seq : Int)
  | latestSeq (seq : Int)
  deriving DecidableEq, Repr

namespace ReadSnapshot

/-- `plan_as_of_micros`. -/
def planAsOfMicros : ReadSnapshot → Int
  | .asOfMicros ts => ts
  | .asOfSeq _     => i64Max
  | .latestSeq _   => i64Max

/-- `plan_commit_seq_upper`. -/
def planCommitSeqUpper : ReadSnapshot → Option Int
  | .asOfMicros _  => none
  | .asOfSeq seq   => some seq
  | .latestSeq seq => some seq

/-- `tighten_for_hot`: intersect a `commit_micros` position with the plan's upper bound. -/
def tightenForHot (hotMax : Int) : ReadSnapshot → ReadSnapshot
  | .asOfMicros ts => .asOfMicros (min ts hotMax)
  | rs             => rs

/-- The visibility predicate of the read position on a committed entry. -/
def sees : ReadSnapshot → LogEntry R V → Bool
  | .asOfMicros ts, e => decide (e.commitMicros ≤ ts)
  | .asOfSeq seq, e   => decide (e.commitSeqNum ≤ seq)
  | .latestSeq seq, e => decide (e.commitSeqNum ≤ seq)

end ReadSnapshot

/-! ## The plan -/

/-- `HotStoragePlan`: the `commit_micros` cap and the fence (`commit_seq.min_seq`). -/
structure HotStoragePlan where
  maxMicros : Int
  minSeq : Option Int
  deriving DecidableEq, Repr

/-- `PersistPlan`: the fetched segments, the exclusive `commit_micros` cap and the fence. -/
structure PersistPlan where
  upsertSegments : List PersistSegment
  deleteSegments : List PersistSegment
  maxMicros : Int
  maxSeq : Option Int
  deriving DecidableEq, Repr

/-- `ColdStoragePlan`. -/
structure ColdStoragePlan (R V : Type) where
  snapshot : Option (TableSnapshot R V)
  persist : Option PersistPlan
  deriving DecidableEq, Repr

/-- `Plan`. -/
structure Plan (R V : Type) where
  hotStorage : Option HotStoragePlan
  coldStorage : Option (ColdStoragePlan R V)
  deriving DecidableEq, Repr

/-- `ColdInputs`. -/
structure ColdInputs (R V : Type) where
  snapshot : Option (TableSnapshot R V)
  upsertSegments : List PersistSegment
  deleteSegments : List PersistSegment

/-- `plan_hot_storage`. -/
def planHotStorage (fence : Option Int) (asOfMicros : Int) : HotStoragePlan :=
  { maxMicros := asOfMicros, minSeq := fence }

/-- `plan_cold_storage`. -/
def planColdStorage (hotMin : Int) (fence : Option Int) (asOfMicros : Int) (cold : ColdInputs R V) :
    Option (ColdStoragePlan R V) :=
  if hotMin = 0 then none
  else
    let persistPlan : Option PersistPlan :=
      if cold.upsertSegments.isEmpty && cold.deleteSegments.isEmpty then none
      else some
        { upsertSegments := cold.upsertSegments, deleteSegments := cold.deleteSegments,
          maxMicros := satSucc asOfMicros, maxSeq := fence }
    if cold.snapshot.isSome || persistPlan.isSome then
      some { snapshot := cold.snapshot, persist := persistPlan }
    else none

/-- `assemble_plan`. -/
def assemblePlan (hotMin : Int) (fence : Option Int) (hotPresent : Bool) (asOfMicros : Int)
    (cold : ColdInputs R V) : Plan R V :=
  { hotStorage := if hotPresent then some (planHotStorage fence asOfMicros) else none
    coldStorage := planColdStorage hotMin fence asOfMicros cold }

/-! ## The statements of `plan()` -/

/-- The snapshot a query bounded by `as_of` and `commit_seq_upper` selects. -/
def Store.pickSnapshotAsOf (s : Store R V) (asOfMicros : Int) (commitSeqUpper : Option Int) :
    Option (TableSnapshot R V) :=
  pickSnapshot (s.snapshots.filter (fun n =>
    decide (n.snapshottedAtMicros ≤ asOfMicros) &&
      commitSeqUpper.all (fun seq => decide (n.commitSeqNum ≤ seq))))

/-- `hot_min`: one past the persist watermark, 0 before the first Persist. -/
def Store.hotMin (s : Store R V) : Int :=
  match s.persistWatermark with
  | some p => p + 1
  | none   => 0

theorem Store.hotMin_eq {s : Store R V} {p : Int} (hp : s.persistWatermark = some p) : s.hotMin = p + 1 := by
  rw [hotMin, hp]

/-- `hot_min_and_snapshot_pick`, one statement. -/
def Store.hotMinAndSnapshotPick (s : Store R V) (asOfMicros : Int) (commitSeqUpper : Option Int) :
    Int × Option (TableSnapshot R V) :=
  (s.hotMin, s.pickSnapshotAsOf (min asOfMicros (s.persistWatermark.getD (-1))) commitSeqUpper)

/-- `compute_snapshot_picker_as_of`. -/
def computeSnapshotPickerAsOf (asOfMicros cutoffMicros : Int) : Int := min asOfMicros (cutoffMicros - 1)

/-- `cold_committed_at_max`. -/
def coldCommittedAtMax (asOfMicros hotMin : Int) : Int := min (satSucc asOfMicros) hotMin

/-- `phase_one_fence_and_existence`: `GREATEST(MAX(Pu), W_snap)` and whether a hot log has a row. -/
def Store.phaseOneFenceAndExistence (s : Store R V) (wSnap : Int) : Int × Bool :=
  (match s.purgeSeqWatermark with
    | some pu => max pu wSnap
    | none    => wSnap,
  !s.hot.isEmpty)

/-- `W_snap` of the snapshot a plan uses. -/
def wSnapOf (snapshot : Option (TableSnapshot R V)) : Int :=
  (snapshot.map TableSnapshot.commitSeqNum).getD snapshotSeqGenesis

/-- The persist-segment statement: the window `[snapshotted_at + 1, cold_max)`. -/
def Store.planSegments (s : Store R V) (asOfMicros hotMin : Int) (commitSeqUpper : Option Int)
    (snapshot : Option (TableSnapshot R V)) : List PersistSegment :=
  s.segmentsForWindow (snapshot.map (fun n => satSucc n.snapshottedAtMicros))
    (some (coldCommittedAtMax asOfMicros hotMin)) commitSeqUpper

/-- The plan made from what the statements returned. -/
def planFrom (asOfMicros hotMin : Int) (snapshot : Option (TableSnapshot R V)) (fence : Int)
    (hotPresent : Bool) (segments : List PersistSegment) : Plan R V :=
  assemblePlan hotMin (some fence) hotPresent asOfMicros
    { snapshot := snapshot
      upsertSegments := segments.filter (fun seg => seg.logKind = .upsertLog)
      deleteSegments := segments.filter (fun seg => seg.logKind = .deleteLog) }

/-- The plan before the first Persist: hot serves every row. -/
def prePersistPlan (asOfMicros : Int) : Plan R V :=
  assemblePlan 0 none true asOfMicros { snapshot := none, upsertSegments := [], deleteSegments := [] }

/-- `plan()` without a snapshot-list cache, all statements on one state. -/
def Store.plan (s : Store R V) (asOfMicros : Int) (commitSeqUpper : Option Int) : Plan R V :=
  let (hotMin, _) := s.hotMinAndSnapshotPick asOfMicros commitSeqUpper
  if hotMin = 0 then prePersistPlan asOfMicros
  else
    let snapshot := s.pickSnapshotAsOf (computeSnapshotPickerAsOf asOfMicros hotMin) commitSeqUpper
    let (fence, hotPresent) := s.phaseOneFenceAndExistence (wSnapOf snapshot)
    planFrom asOfMicros hotMin snapshot fence hotPresent
      (s.planSegments asOfMicros hotMin commitSeqUpper snapshot)

/-! ## Executing the plan -/

/-- `read_snapshot_clause`: above the fence and visible. -/
def hotVisible (rs : ReadSnapshot) (p : HotStoragePlan) (e : LogEntry R V) : Bool :=
  p.minSeq.all (fun w => decide (w < e.commitSeqNum)) && (rs.tightenForHot p.maxMicros).sees e

/-- The hot entries the resolve query ranks. -/
def Store.hotEntries (s : Store R V) (rs : ReadSnapshot) (plan : Plan R V) : List (LogEntry R V) :=
  match plan.hotStorage with
  | none   => []
  | some p => s.hot.filter (hotVisible rs p)

/-- `fold_cold_seq_upper`. -/
def foldColdSeqUpper : Option Int → Option Int → Option Int
  | some a, some b => some (min a b)
  | a,      none   => a
  | none,   b      => b

/-- `cold_visibility_clause`. -/
def coldVisible (rs : ReadSnapshot) (p : PersistPlan) (e : LogEntry R V) : Bool :=
  decide (e.commitMicros < p.maxMicros) &&
    (foldColdSeqUpper rs.planCommitSeqUpper p.maxSeq).all (fun n => decide (e.commitSeqNum ≤ n))

/-- The cold entries the resolve query ranks: the fetched segments, filtered row by row. -/
def Store.coldEntries (s : Store R V) (rs : ReadSnapshot) (plan : Plan R V) : List (LogEntry R V) :=
  match plan.coldStorage.bind ColdStoragePlan.persist with
  | none   => []
  | some p => ((p.upsertSegments ++ p.deleteSegments).flatMap s.readSegment).filter (coldVisible rs p)

/-- The rows of the plan's snapshot. -/
def Plan.snapshotRows (plan : Plan R V) : List (R × V) :=
  ((plan.coldStorage.bind ColdStoragePlan.snapshot).map TableSnapshot.rows).getD []

/-- The merge pipeline on a plan. -/
def Store.readPlan [DecidableEq R] (s : Store R V) (rs : ReadSnapshot) (plan : Plan R V) : List (R × V) :=
  mergeRows (mergeResolved (s.hotEntries rs plan)) (mergeResolved (s.coldEntries rs plan))
    plan.snapshotRows

/-- `read_data`: plan and execute on one state. -/
def Store.readData [DecidableEq R] (s : Store R V) (rs : ReadSnapshot) : List (R × V) :=
  s.readPlan rs (s.plan rs.planAsOfMicros rs.planCommitSeqUpper)

end Penca
