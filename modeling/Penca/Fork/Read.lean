import Penca.Fork.Copy

/-!
# `Fork.Read` — reads of a child, and the two branches after the fork

A child holds one baseline of its parent and the segments past it. A read below the fork therefore takes a
second cold source, the parent's own cold tier up to the read position (`enumerate_base_cold_source`), and
folds it in below the child's tiers: a parent row counts only if no tier of the child mentions it, and the
snapshot leg is the child's, or else the parent's.

- **`ForkedParent`** and **`ForkedChild`**: what the two branches keep of the fork, whatever they do afterwards.
- A read at or past the fork is a read of the child's own tiers (`BranchInv.readData_latestSeq`).
-/

namespace Penca

open Newest

variable {R V : Type}

/-! ## The plan -/

/-- `BaseColdStorage`. -/
structure BaseColdStorage (R V : Type) where
  cold : ColdStoragePlan R V
  commitSeqCeiling : Int

/-- `Plan` of a forked branch. -/
structure ForkedPlan (R V : Type) where
  own : Plan R V
  baseColdStorage : Option (BaseColdStorage R V)

/-- A branch with its fork lineage: the parent and the fork commit's position on both axes. -/
structure ForkedBranch (R V : Type) where
  child : Store R V
  parent : Store R V
  fork : ForkPoint

/-- The parent segments past the snapshot the base arm picked, up to the ceiling. -/
def Store.baseSegments (p : Store R V) (asOfMicros commitSeqCeiling : Int) : List PersistSegment :=
  p.segmentsForWindow ((p.pickSnapshotAsOf asOfMicros (some commitSeqCeiling)).map
    (fun n => satSucc n.snapshottedAtMicros)) none (some commitSeqCeiling)

/-- `enumerate_base_cold_source`: the parent's snapshot within the read position, and the segments past it up
    to the ceiling; `none` if there is neither. -/
def Store.enumerateBaseColdSource (p : Store R V) (asOfMicros commitSeqCeiling : Int) :
    Option (BaseColdStorage R V) :=
  let snapshot := p.pickSnapshotAsOf asOfMicros (some commitSeqCeiling)
  let segments := p.baseSegments asOfMicros commitSeqCeiling
  let persist : Option PersistPlan :=
    if segments.isEmpty then none
    else some
      { upsertSegments := segments.filter (fun seg => seg.logKind = .upsertLog)
        deleteSegments := segments.filter (fun seg => seg.logKind = .deleteLog)
        maxMicros := satSucc asOfMicros, maxSeq := some commitSeqCeiling }
  if snapshot.isNone && persist.isNone then none else some ⟨⟨snapshot, persist⟩, commitSeqCeiling⟩

/-- `read_is_below_fork`. -/
def readIsBelowFork (fork : ForkPoint) (asOfMicros : Int) (commitSeqUpper : Option Int) : Bool :=
  decide (asOfMicros < fork.commitMicros) || commitSeqUpper.any (fun seq => decide (seq < fork.commitSeqNum))

/-- `plan()` on a forked branch: the child's own plan, and the base arm for a read below the fork. -/
def ForkedBranch.plan (b : ForkedBranch R V) (rs : ReadSnapshot) : ForkedPlan R V where
  own := b.child.plan rs.planAsOfMicros rs.planCommitSeqUpper
  baseColdStorage :=
    if readIsBelowFork b.fork rs.planAsOfMicros rs.planCommitSeqUpper then
      b.parent.enumerateBaseColdSource rs.planAsOfMicros
        ((rs.planCommitSeqUpper.map (fun seq => min b.fork.commitSeqNum seq)).getD b.fork.commitSeqNum)
    else none

/-! ## Executing it -/

/-- The parent entries the base arm ranks: a cold-only plan read at the ceiling. -/
def Store.baseEntries (p : Store R V) (base : BaseColdStorage R V) : List (LogEntry R V) :=
  p.coldEntries (.asOfSeq base.commitSeqCeiling) ⟨none, some base.cold⟩

variable [DecidableEq R]

/-- `build_cold_resolved_and_exclusion_set`: the all-cold path. -/
def coldResolvedAndExclusion (cold : List (LogEntry R V)) : List (R × V) × List R :=
  (filterLiveRows cold, cold.map LogEntry.rowUuid)

/-- `fold_in_base_cold_source`: the live rows of the base that the child did not touch; every row of the base
    joins the exclusion set. -/
def foldInBaseColdSource (base : List (LogEntry R V)) (tiers : List (R × V) × List R) :
    List (R × V) × List R :=
  (tiers.1 ++ (filterLiveRows base).filter (fun row => row.1 ∉ tiers.2), tiers.2 ++ base.map LogEntry.rowUuid)

/-- `plan_snapshot_stream`: the child's snapshot leg, else the base's. -/
def ForkedPlan.snapshotRows (plan : ForkedPlan R V) : List (R × V) :=
  (((plan.own.coldStorage.bind ColdStoragePlan.snapshot).or
    (plan.baseColdStorage.bind (fun base => base.cold.snapshot))).map TableSnapshot.rows).getD []

/-- The tiers of the child: `stream_all_cold_parts` without a hot plan, `stream_merged_parts` with one. -/
def ForkedBranch.ownTiers (b : ForkedBranch R V) (rs : ReadSnapshot) (plan : ForkedPlan R V) :
    List (R × V) × List R :=
  match plan.own.hotStorage with
  | none   => coldResolvedAndExclusion (mergeResolved (b.child.coldEntries rs plan.own))
  | some _ => composeResolvedAndExclusion (mergeResolved (b.child.hotEntries rs plan.own))
      (mergeResolved (b.child.coldEntries rs plan.own))

/-- `read_data` on a forked branch. -/
def ForkedBranch.readData (b : ForkedBranch R V) (rs : ReadSnapshot) : List (R × V) :=
  let plan := b.plan rs
  let tiers := b.ownTiers rs plan
  let (resolved, exclusion) :=
    match plan.baseColdStorage with
    | none      => tiers
    | some base => foldInBaseColdSource (mergeResolved (b.parent.baseEntries base)) tiers
  resolved ++ plan.snapshotRows.filter (fun row => row.1 ∉ exclusion)

/-! ## The parent after the fork -/

section Parent

variable {cfg : PersistConfig R V} {p p' : Store R V} {H : History R V} {fork : ForkPoint}
  {inherited : List (LogEntry R V)}

/-- The parent of a fork: what it committed up to the fork is fixed and persisted. -/
structure ForkedParent (p : Store R V) (H : History R V) (fork : ForkPoint) (inherited : List (LogEntry R V)) :
    Prop where
  inv : StoredInv p H
  entries : ∀ e, (e ∈ H.entries ∧ e.commitSeqNum ≤ fork.commitSeqNum) ↔ e ∈ inherited
  persisted : ∀ e ∈ inherited, p.PersistedEntry e
  counter : fork.commitSeqNum < p.commitSeqCounter

theorem StoredInv.persistedEntry_step (hinv : StoredInv p H) {op : TableOp R V} (hnc : TableNoClobber cfg p op)
    (h : tableStep cfg p op = some p') {e : LogEntry R V} (he : p.PersistedEntry e) : p'.PersistedEntry e := by
  have hkeep : p'.tablePersists = p.tablePersists → p'.PersistedEntry e := by
    intro heq
    rw [Store.PersistedEntry, Store.persistWatermark, heq]
    exact he
  cases op with
  | compact logKind inputs =>
      obtain ⟨-, rfl⟩ := Store.compactOneScope_eq_some.mp h
      exact hkeep rfl
  | op o =>
      cases o with
      | commit micros rows =>
          rcases Store.commitTx_cases h with rfl | ⟨-, -, rfl⟩
          · exact he
          · exact hkeep rfl
      | persist requestTarget step1Now =>
          cases h
          rcases Store.persistLocked_flushed hinv.segments.ok hinv.parents hnc with heq | ⟨persistedAt, hp⟩
          · rw [heq]
            exact he
          · obtain ⟨l, hl, hel⟩ := he
            exact ⟨persistedAt, hp.watermark, hel.trans (hp.advances l hl).le⟩
      | snapshot snapshottedAt indexes =>
          cases h
          apply hkeep
          simp only [Store.snapshotLocked]
          split <;> rfl
      | purge =>
          cases h
          apply hkeep
          simp only [Store.purgeLocked]
          split <;> rfl

theorem StoredInv.entries_step (hinv : StoredInv p H) {op : TableOp R V} (h : tableStep cfg p op = some p') :
    p.commitSeqCounter ≤ p'.commitSeqCounter ∧ ∃ es, (tableHistoryStep H op).entries = H.entries ++ es ∧
      ∀ e ∈ es, p.commitSeqCounter ≤ e.commitSeqNum := by
  have hsame : p'.commitSeqCounter = p.commitSeqCounter → tableHistoryStep H op = H →
      p.commitSeqCounter ≤ p'.commitSeqCounter ∧ ∃ es, (tableHistoryStep H op).entries = H.entries ++ es ∧
        ∀ e ∈ es, p.commitSeqCounter ≤ e.commitSeqNum :=
    fun hcounter hH => ⟨hcounter.ge, [], by rw [hH, List.append_nil], by simp⟩
  cases op with
  | compact logKind inputs =>
      obtain ⟨-, rfl⟩ := Store.compactOneScope_eq_some.mp h
      exact hsame rfl rfl
  | op o =>
      cases o with
      | commit micros rows =>
          rcases hinv.commitTx_cases h with ⟨rfl, hH⟩ | ⟨hacc, hH, rfl⟩
          · exact hsame rfl hH
          · refine ⟨?_, (H.nextTx micros rows).entries, ?_, ?_⟩
            · show p.commitSeqCounter ≤ p.commitSeqCounter + 1
              omega
            · show (H.commit micros rows).entries = _
              rw [hH, History.entries_append]
            · intro e he
              rw [CommittedTx.commitSeqNum_of_mem he, hinv.counter]
              exact le_refl _
      | persist requestTarget step1Now =>
          cases h
          exact hsame (p.coldOnly_persistLocked cfg requestTarget step1Now).commitSeqCounter rfl
      | snapshot snapshottedAt indexes =>
          cases h
          refine hsame ?_ rfl
          simp only [Store.snapshotLocked]
          split <;> rfl
      | purge =>
          cases h
          refine hsame ?_ rfl
          simp only [Store.purgeLocked]
          split <;> rfl

theorem ForkedParent.step (hpar : ForkedParent p H fork inherited) {op : TableOp R V}
    (hnc : TableNoClobber cfg p op) (h : tableStep cfg p op = some p') :
    ForkedParent p' (tableHistoryStep H op) fork inherited := by
  obtain ⟨hcounter, es, hes, hnew⟩ := hpar.inv.entries_step h
  have hfork := hpar.counter
  refine ⟨hpar.inv.step hnc h, ?_, fun e he => hpar.inv.persistedEntry_step hnc h (hpar.persisted e he), by omega⟩
  intro e
  rw [← hpar.entries e, hes, List.mem_append]
  refine and_congr_left (fun hle => or_iff_left (fun he => ?_))
  have := hnew e he
  omega

/-- **The parent stays good** for its forks, whatever it does afterwards. -/
theorem ForkedParent.run (hpar : ForkedParent p H fork inherited) {ops : List (TableOp R V)}
    (hmeets : Runs.Meets (tableStep cfg) (TableNoClobber cfg) p ops)
    (hrun : Runs.run (tableStep cfg) p ops = some p') :
    ForkedParent p' (ops.foldl tableHistoryStep H) fork inherited := by
  have hstep : ∀ (p : Store R V) (H : History R V) (op : TableOp R V) (p' : Store R V),
      ForkedParent p H fork inherited → TableNoClobber cfg p op → tableStep cfg p op = some p' →
      ForkedParent p' (tableHistoryStep H op) fork inherited :=
    fun _ _ _ _ hpar hnc h => hpar.step hnc h
  exact Runs.simulation_of_step (R := fun p H => ForkedParent p H fork inherited) hstep hpar hmeets hrun

end Parent

/-! ## The child after the fork -/

section Child

variable {cfg : PersistConfig R V} {b b' : Branch R V} {fork : ForkPoint} {inherited : List (LogEntry R V)}
  {floor : Option Int}

/-- The child of a fork: its log up to the fork is what it inherited, behind a purge fence. -/
structure ForkedChild (b : Branch R V) (fork : ForkPoint) (inherited : List (LogEntry R V))
    (floor : Option Int) : Prop where
  keeps : b.Keeps floor
  entries : ∀ e, (e ∈ b.log ∧ e.commitSeqNum ≤ fork.commitSeqNum) ↔ e ∈ inherited
  fenced : inherited = [] ∨ fork.commitSeqNum ∈ b.store.purges
  counter : fork.commitSeqNum < b.store.commitSeqCounter
  baseline : ∀ f, floor = some f → ∃ n ∈ b.store.snapshots, n.commitSeqNum ≤ fork.commitSeqNum

omit [DecidableEq R] in
theorem ForkedChild.grows (hchild : ForkedChild b fork inherited floor) (hkeeps : b'.Keeps floor)
    (hgrows : b.Grows b') : ForkedChild b' fork inherited floor := by
  obtain ⟨es, hes, hnew⟩ := hgrows.log
  have hfork := hchild.counter
  refine ⟨hkeeps, ?_, hchild.fenced.imp_right (hgrows.purges _), lt_of_lt_of_le hfork hgrows.counter, ?_⟩
  · intro e
    rw [← hchild.entries e, hes, List.mem_append]
    refine and_congr_left (fun hle => or_iff_left (fun he => ?_))
    have := hnew e he
    omega
  · intro f hf
    obtain ⟨n, hn, hle⟩ := hchild.baseline f hf
    exact ⟨n, hgrows.snapshots n hn, hle⟩

omit [DecidableEq R] in
theorem ForkedChild.lt_of_mem_hot (hchild : ForkedChild b fork inherited floor) {e : LogEntry R V}
    (he : e ∈ b.store.hot) : fork.commitSeqNum < e.commitSeqNum := by
  obtain ⟨L, hL, hinv⟩ := hchild.keeps
  obtain ⟨hent, hpurges⟩ := (hinv.mem_hot e).mp he
  rcases hchild.fenced with hnil | hmem
  · by_contra hle
    have hin := (hchild.entries e).mp ⟨hL ▸ hent, by omega⟩
    rw [hnil] at hin
    cases hin
  · exact hpurges _ hmem

end Child

/-! ## Reads at or past the fork -/

omit [DecidableEq R] in
/-- At or past the fork there is no base arm. -/
theorem ForkedBranch.baseColdStorage_plan_latestSeq {b : ForkedBranch R V} {seq : Int}
    (hge : b.fork.commitSeqNum ≤ seq) (hfork : b.fork.commitMicros ≤ i64Max) :
    (b.plan (.latestSeq seq)).baseColdStorage = none := by
  have hbelow : readIsBelowFork b.fork i64Max (some seq) = false := by
    rw [readIsBelowFork, decide_eq_false (not_lt.mpr hfork), Bool.false_or]
    exact decide_eq_false (not_lt.mpr hge)
  show (if readIsBelowFork b.fork i64Max (some seq) = true then _ else none) = none
  rw [hbelow]
  rfl

/-- **A read at or past the fork** is a read of the child's own tiers. -/
theorem BranchInv.readData_latestSeq {b : ForkedBranch R V} {L : BranchLog R V} {floor : Option Int}
    (hinv : BranchInv b.child L floor) {seq : Int} (hge : b.fork.commitSeqNum ≤ seq)
    (hfork : b.fork.commitMicros ≤ i64Max) :
    b.readData (.latestSeq seq) = b.child.readData (.latestSeq seq) := by
  have hbase := ForkedBranch.baseColdStorage_plan_latestSeq hge hfork
  have hsnap : (b.plan (.latestSeq seq)).snapshotRows = (b.plan (.latestSeq seq)).own.snapshotRows := by
    rw [ForkedPlan.snapshotRows, hbase, Option.bind_none, Option.or_none, Plan.snapshotRows]
  rw [ForkedBranch.readData, hbase, hsnap]
  show _ = b.child.readPlan (.latestSeq seq) (b.plan (.latestSeq seq)).own
  rw [ForkedBranch.ownTiers, Store.readPlan, mergeRows]
  cases hhot : (b.plan (.latestSeq seq)).own.hotStorage with
  | some p => rfl
  | none =>
      -- The all-cold path skips the union with the hot tier.
      have hnil : b.child.hotEntries (.latestSeq seq) (b.plan (.latestSeq seq)).own = [] := by
        rw [Store.hotEntries, hhot]
      have hsep : Separated LogEntry.version LogEntry.rowUuid
          {e | e ∈ b.child.coldEntries (.latestSeq seq) (b.plan (.latestSeq seq)).own} := by
        refine L.separated.mono (fun e he => ?_)
        rw [Set.mem_ofPred_eq, ForkedBranch.plan, Store.plan_eq_planWith] at he
        exact (BranchLog.mem_visibleTo.mp (hinv.visible_of_mem_coldEntries he)).1
      have hunion : unionLatest (mergeResolved []) (mergeResolved
          (b.child.coldEntries (.latestSeq seq) (b.plan (.latestSeq seq)).own)) =
          mergeResolved (b.child.coldEntries (.latestSeq seq) (b.plan (.latestSeq seq)).own) :=
        dedupByRowUuid_eq_self (nodup_rowUuid_mergeResolved hsep)
      rw [hnil, composeResolvedAndExclusion, hunion]
      rfl

/-! ## The fork and everything after it -/

section Run

/-- The log of a fresh child: what it inherited. -/
def forkLog (H : History R V) (fork : ForkPoint) (listed : Bool) : List (LogEntry R V) :=
  if listed then H.atFork fork else []

theorem StoredInv.forkedParent {p : Store R V} {H : History R V} (hinv : StoredInv p H) {fork : ForkPoint}
    (hfork : H.Commits fork)
    (hpersisted : ∀ e ∈ H.entries, e.commitSeqNum ≤ fork.commitSeqNum → p.PersistedEntry e) :
    ForkedParent p H fork (H.log.cut fork.commitSeqNum).entries := by
  refine ⟨hinv, fun e => (BranchLog.mem_cut (L := H.log)).symm, ?_, ?_⟩
  · intro e he
    obtain ⟨hent, hle⟩ := BranchLog.mem_cut.mp he
    exact hpersisted e hent hle
  · obtain ⟨t, ht, hseq, -⟩ := hfork
    have := (H.numbered t ht).2
    rw [hinv.counter]
    omega

theorem StoredInv.forkedChild {p child : Store R V} {H : History R V} (hinv : StoredInv p H) {fork : ForkPoint}
    {forkMicros : Int}
    (hpersisted : ∀ e ∈ H.entries, e.commitSeqNum ≤ fork.commitSeqNum → p.PersistedEntry e)
    (hclock : p.ClockAdmits forkMicros) (hpos : 0 ≤ fork.commitSeqNum)
    (hchild : p.materializeForkColdReferences fork forkMicros = some child) :
    ForkedChild ⟨child, H.atFork fork⟩ fork (H.log.cut fork.commitSeqNum).entries (p.baselineAt fork) := by
  have heq := (Store.child_eq hchild).1
  constructor
  case keeps => exact ⟨H.log.cut fork.commitSeqNum, rfl, forkChild_inv hinv hpersisted hclock hpos hchild⟩
  case entries =>
    intro e
    exact and_iff_left_of_imp (fun he => (BranchLog.mem_cut (L := H.log).mp he).2)
  case fenced =>
    right
    rw [heq]
    exact List.mem_singleton_self _
  case counter =>
    rw [heq]
    show fork.commitSeqNum < fork.commitSeqNum + 2
    omega
  case baseline =>
    intro f hf
    obtain ⟨n, hn, -⟩ := Option.map_eq_some_iff.mp hf
    refine ⟨n, ?_, (hinv.of_inheritedSnapshot hn).2.2⟩
    rw [heq]
    exact Option.mem_toList.mpr hn

omit [DecidableEq R] in
/-- The child of a table that was not copied is one of its fork that inherited nothing. -/
theorem forkedChild_childTable {fork : ForkPoint} {forkMicros : Int} (hpos : 0 ≤ fork.commitSeqNum) :
    ForkedChild ⟨(childTable fork forkMicros : Store R V), []⟩ fork (History.empty : History R V).log.entries none := by
  have hinv : BranchInv (childTable fork forkMicros : Store R V) (History.empty : History R V).log none := by
    have hcounter : (childTable fork forkMicros : Store R V).commitSeqCounter = fork.commitSeqNum + 2 := rfl
    constructor
    case nonneg => omega
    case allocated => exact fun e he => absurd he List.not_mem_nil
    case clock => exact fun e he => absurd he List.not_mem_nil
    case mem_hot =>
      intro e
      exact iff_of_false List.not_mem_nil (fun he => absurd he.1 List.not_mem_nil)
    case parents => exact fun q hq => absurd hq List.not_mem_nil
    case segments =>
      have hok : (Store.init : Store R V).SegmentsOk := Store.SegmentsWF.init.ok
      exact ⟨hok.committed, hok.parent, hok.located, hok.counted, hok.nonempty⟩
    case bounded => exact fun v hv => absurd hv List.not_mem_nil
    case stored => exact fun v hv => absurd hv List.not_mem_nil
    case complete => exact fun e he => absurd he List.not_mem_nil
    case ceilings => exact fun v hv => absurd hv List.not_mem_nil
    case clipped => exact fun v hv => absurd hv List.not_mem_nil
    case watermark => exact fun q hq => absurd hq (by simp [childTable, Store.init, Store.persistWatermark])
    case snapshots => exact fun n hn => absurd hn List.not_mem_nil
    case ordered => exact List.Pairwise.nil
    case fences => exact fun pu hpu => absurd hpu List.not_mem_nil
    case based => exact fun f hf => absurd hf (by simp)
  constructor
  case keeps => exact ⟨_, rfl, hinv⟩
  case entries => exact fun e => and_iff_left_of_imp (fun he => absurd he List.not_mem_nil)
  case fenced => exact .inl rfl
  case counter =>
    show fork.commitSeqNum < fork.commitSeqNum + 2
    omega
  case baseline => exact fun f hf => absurd hf (by simp)

/-- What the two branches do after the fork. -/
def parentOnRun : List (TableOp Nat Nat) :=
  [.op (.commit 70 (.single 1 (.upsert 11) 5)), .op (.persist none 75), .op (.snapshot none [])]

def childOnRun : List (Op Nat Nat) :=
  [.commit 70 (.single 1 (.upsert 12) 0), .persist none 75, .snapshot none [], .purge,
    .commit 80 (.single 2 .delete 1)]

end Run

end Penca
