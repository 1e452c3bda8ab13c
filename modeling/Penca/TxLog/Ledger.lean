import Mathlib.Data.List.Dedup
import Penca.Lib.Keyed
import Penca.Lib.Runs
import Penca.Store.State

/-!
# `TxLog.Ledger` — the transaction logs of a branch and their two collectors

The tx-log family of one branch (`begin_tx_log`, `commit_tx_log`, `abort_tx_log`, `tx_table_log`), the rows the
transactions left in the hot logs of the tables, the purge watermarks of the tables, and the cold copy of
`commit_tx_log`. Three things take rows out of it or copy them:

- **Purge** of a table deletes the hot rows of transactions that are folded into a snapshot, aborted or expired,
  and records how far it got on both axes (`purge`).
- **`persist_tx_log`** copies the commit rows above `W_txlog` to a cold file: under a lock it reclaims what a
  crashed run left, reads, records, writes and commits in separate statements (`Flush`). Persist calls it before
  it writes a data segment.
- **`PurgeTxLog`** deletes the rows of settled transactions up to cutoffs it computes from the purge watermarks
  (`Collect`).

Commits, aborts, writes and Purges are single events, the statements of the other two interleave with them. A
statement that fails ends its call, or is skipped where the code ignores its error; `flushStops` and
`collectStops` end a call between any two statements.
-/

namespace Penca

variable {T X : Type}

/-! ## Rows -/

/-- A `begin_tx_log` row. -/
structure BeginTxRow (X : Type) where
  txUuid : X
  expiresAtMicros : Int
  comment : String
  author : String
  deriving DecidableEq, Repr

/-- A `commit_tx_log` row. -/
structure CommitTxRow (X : Type) extends CommitRow where
  txUuid : X
  comment : String
  author : String
  deriving DecidableEq, Repr

/-- An `abort_tx_log` row. -/
structure AbortTxRow (X : Type) where
  txUuid : X
  abortedAtMicros : Int
  abortedAtSeqNum : Int
  deriving DecidableEq, Repr

/-- A row of a table's hot `upsert_log` or `delete_log`, as far as the collectors look at it. -/
structure HotRow (T X : Type) where
  tableUuid : T
  logKind : LogKind
  txUuid : X
  deriving DecidableEq, Repr

/-- A committed `table_purge_metadata` row. -/
structure TablePurge (T : Type) where
  tableUuid : T
  lastPurgedCommitSeqNum : Option Int
  lastPurgedAbortedSeqNum : Option Int
  commitMicros : Int
  deriving DecidableEq, Repr

/-- A row of a cold `tx_log` file (`tx_log_arrow_schema`). -/
structure TxLogRecord where
  commitSeqNum : Int
  commitMicros : Int
  author : String
  comment : String
  deriving DecidableEq, Repr

def CommitTxRow.record (c : CommitTxRow X) : TxLogRecord := ⟨c.commitSeqNum, c.commitMicros, c.author, c.comment⟩

/-- A `tx_log_persist_segment_metadata` row. The uuid is derived from the greatest number of the segment, and
    the uri of its file from the uuid: both are that number here. -/
structure TxLogSegment where
  uuid : Int
  minCommitSeqNum : Int
  maxCommitSeqNum : Int
  minCommitMicros : Int
  maxCommitMicros : Int
  rowCount : Nat
  committed : Bool
  deriving DecidableEq, Repr

/-! ## Calls in flight -/

/-- Where the locked part of `persist_tx_log` is. -/
inductive FlushPhase (X : Type) where
  /-- The lock is granted; the uncommitted segments are listed next. -/
  | locked
  /-- The uncommitted segments still to reclaim; after them `W_txlog` is read. -/
  | reclaiming (uuids : List Int)
  /-- The file of `uuid` is deleted, its row is next. -/
  | dropping (uuid : Int) (uuids : List Int)
  | selecting (wTxlog : Int)
  | inserting (row : CommitTxRow X) (rows : List (CommitTxRow X))
  | writing (row : CommitTxRow X) (rows : List (CommitTxRow X))
  | committing (uuid : Int)
  /-- The write failed: the file is deleted, then the row. -/
  | discarding (uuid : Int)
  | forgetting (uuid : Int)

/-- A `persist_tx_log` call that holds the lock `persist_tx_log:{branch}`. `caller` is the table of the Persist
    that made the call. -/
structure Flush (T X : Type) where
  caller : Option T
  target : Int
  phase : FlushPhase X

/-- How a statement or a file operation ends. A failed file operation leaves the file in any state. -/
inductive Outcome where
  | done
  | failed (left : Option (List TxLogRecord))

/-- The seq cutoffs of `PurgeTxLog` (`PurgeTxLogCutoffs`). -/
structure PurgeTxLogCutoffs where
  puCutoff : Option Int
  paCutoff : Option Int
  deriving DecidableEq, Repr

/-- A `PurgeTxLog` call that holds the lock `purge_tx_log:{branch}`. -/
inductive Collect where
  | started (cleanupStartedAtMicros : Int)
  | watermarked (cleanupStartedAtMicros : Int) (cutoffs : PurgeTxLogCutoffs)
  /-- The committed cutoff is clamped to `W_txlog`. -/
  | clamped (cleanupStartedAtMicros : Int) (cutoffs : PurgeTxLogCutoffs)
  deriving DecidableEq, Repr

/-! ## The state -/

/-- The tables of the branch and the calls in flight. -/
structure TxLogStore (T X : Type) where
  clock : Int
  commitSeqCounter : Int
  abortSeqCounter : Int
  beginTxLog : List (BeginTxRow X)
  commitTxLog : List (CommitTxRow X)
  abortTxLog : List (AbortTxRow X)
  txTableLog : List (X × T)
  hotRows : List (HotRow T X)
  /-- `(table, n)`: a Persist of the table was allowed to write segments with rows up to number `n`, or the
      fork was created with such segments. -/
  persisted : List (T × Int)
  /-- `(table, commit_seq_num)` of the committed snapshots. -/
  tableSnapshots : List (T × Int)
  tablePurges : List (TablePurge T)
  txLogSegments : List TxLogSegment
  txLogFiles : Int → Option (List TxLogRecord)
  /-- Not a table: every row `commit_tx_log` ever held. -/
  history : List (CommitTxRow X)
  flush : Option (Flush T X)
  collect : Option Collect

/-- The intervals of the lifecycle scheduler and the grace of expired transactions. -/
structure LifecycleConfig where
  persistTickIntervalSeconds : Int
  snapshotTickIntervalSeconds : Int
  hotPurgeGraceSeconds : Int

/-- `purge_sweep_interval_micros`. The seconds are `i64` in `config.rs` and the product there overflows above
    `i64::MAX / 10^6` of them, some 292 thousand years; here it is an unbounded integer. -/
def LifecycleConfig.purgeSweepIntervalMicros (cfg : LifecycleConfig) : Int :=
  max (max cfg.persistTickIntervalSeconds cfg.snapshotTickIntervalSeconds) 0 * 1000000

/-- The grace of the expired-begin ledger GC: at least one sweep interval. Unbounded as well. -/
def LifecycleConfig.expiredBeginGraceMicros (cfg : LifecycleConfig) : Int :=
  max cfg.purgeSweepIntervalMicros (cfg.hotPurgeGraceSeconds * 1000000)

/-- `i64::saturating_sub`. -/
def satSub (x y : Int) : Int := max (min (x - y) i64Max) i64Min

/-- What `CreateBranch` copies onto a fork whose first number is `seed`: the tables the parent lists, and the
    persisted rows and the snapshots of theirs, numbered up to the fork position. A branch that is no fork
    starts with none. -/
structure ForkCopy (T : Type) (seed : Nat) where
  tables : List T
  persisted : List (T × Fin seed)
  tableSnapshots : List (T × Fin seed)
  forked : tables = [] ∨ 0 < seed

/-- No fork, or a fork of a parent without tables. -/
def ForkCopy.empty (seed : Nat) : ForkCopy T seed := ⟨[], [], [], .inl rfl⟩

namespace TxLogStore

/-- A branch whose counter is seeded with `seed`, 0 or one past its fork position. The fork copy leaves a purge
    row at that position for every table. -/
def seeded (clock seed : Nat) (inherited : ForkCopy T seed) : TxLogStore T X where
  clock := clock
  commitSeqCounter := seed
  abortSeqCounter := 0
  beginTxLog := []
  commitTxLog := []
  abortTxLog := []
  txTableLog := []
  hotRows := []
  persisted := inherited.persisted.map (fun p => (p.1, ((p.2 : Nat) : Int)))
  tableSnapshots := inherited.tableSnapshots.map (fun p => (p.1, ((p.2 : Nat) : Int)))
  tablePurges := inherited.tables.map (fun table => ⟨table, some ((seed : Int) - 1), none, clock⟩)
  txLogSegments := []
  txLogFiles := fun _ => none
  history := []
  flush := none
  collect := none

variable [DecidableEq T] [DecidableEq X]

/-! ## Transactions -/

/-- A new uuid: no row of the branch has it. -/
def fresh (s : TxLogStore T X) (tx : X) : Bool :=
  s.beginTxLog.all (fun b => b.txUuid ≠ tx) && s.history.all (fun c => c.txUuid ≠ tx) &&
    s.abortTxLog.all (fun a => a.txUuid ≠ tx) && s.txTableLog.all (fun w => w.1 ≠ tx) &&
      s.hotRows.all (fun r => r.txUuid ≠ tx)

/-- The begin row of a transaction whose status is open: no commit row, no abort row, not expired. -/
def openTx (s : TxLogStore T X) (tx : X) : Option (BeginTxRow X) :=
  s.beginTxLog.find? (fun b => decide (b.txUuid = tx ∧ s.clock ≤ b.expiresAtMicros) &&
    s.commitTxLog.all (fun c => c.txUuid ≠ tx) && s.abortTxLog.all (fun a => a.txUuid ≠ tx))

/-- The rows a write leaves in the hot logs, and its `tx_table_log` rows. -/
def insertHotRows (s : TxLogStore T X) (tx : X) (rows : List (T × LogKind)) : TxLogStore T X :=
  { s with
    hotRows := s.hotRows ++ rows.map (fun r => ⟨r.1, r.2, tx⟩)
    txTableLog := Keyed.insertAllNew id s.txTableLog (rows.map (fun r => (tx, r.1))) }

/-- The commit row of the next number, at the time of the clock. -/
def nextCommit (s : TxLogStore T X) (tx : X) (comment author : String) : CommitTxRow X :=
  { commitSeqNum := s.commitSeqCounter, commitMicros := s.clock, txUuid := tx, comment := comment, author := author }

def insertCommit (s : TxLogStore T X) (tx : X) (comment author : String) : TxLogStore T X :=
  { s with
    commitSeqCounter := s.commitSeqCounter + 1
    commitTxLog := s.commitTxLog ++ [s.nextCommit tx comment author]
    history := s.history ++ [s.nextCommit tx comment author] }

/-- The unique index on `(branch_uuid, commit_micros)` refuses a commit now. -/
def refusesCommit (s : TxLogStore T X) : Bool := s.commitTxLog.any (fun c => c.commitMicros = s.clock)

def insertAbort (s : TxLogStore T X) (tx : X) : TxLogStore T X :=
  { s with
    abortSeqCounter := s.abortSeqCounter + 1
    abortTxLog := s.abortTxLog ++ [⟨tx, s.clock, s.abortSeqCounter⟩] }

/-! ## Purge -/

/-- Timed out, neither committed nor aborted. -/
def expiredBegin (s : TxLogStore T X) (bound : Int) : List X :=
  (s.beginTxLog.filter (fun b => decide (b.expiresAtMicros < bound) &&
    s.commitTxLog.all (fun c => c.txUuid ≠ b.txUuid) &&
      s.abortTxLog.all (fun a => a.txUuid ≠ b.txUuid))).map BeginTxRow.txUuid

/-- The committed transactions up to a number. -/
def committedUpTo (s : TxLogStore T X) (pu : Int) : List X :=
  (s.commitTxLog.filter (fun c => c.commitSeqNum ≤ pu)).map CommitTxRow.txUuid

/-- The aborted transactions below a number of the abort counter. -/
def abortedBelow (s : TxLogStore T X) (pa : Int) : List X :=
  (s.abortTxLog.filter (fun a => a.abortedAtSeqNum < pa)).map AbortTxRow.txUuid

/-- `delete_hot_log_rows_for_tx_subquery`: both hot logs of the table. -/
def deleteHotRows (s : TxLogStore T X) (table : T) (txs : List X) : TxLogStore T X :=
  { s with hotRows := s.hotRows.filter (fun r => !(decide (r.tableUuid = table) && decide (r.txUuid ∈ txs))) }

/-- `W_snap` of the table. -/
def snapshotSeqWatermark (s : TxLogStore T X) (table : T) : Option Int :=
  ((s.tableSnapshots.filter (fun n => n.1 = table)).map Prod.snd).max?

/-- The purge rows of the table, only those committed by a time if one is given. -/
def purgesOf (s : TxLogStore T X) (table : T) (asOfMicros : Option Int) : List (TablePurge T) :=
  s.tablePurges.filter (fun p =>
    decide (p.tableUuid = table) && asOfMicros.all (fun micros => decide (p.commitMicros ≤ micros)))

/-- `Pu` of the table. -/
def purgeSeqWatermark (s : TxLogStore T X) (table : T) (asOfMicros : Option Int) : Option Int :=
  ((s.purgesOf table asOfMicros).filterMap TablePurge.lastPurgedCommitSeqNum).max?

/-- `Pa` of the table. -/
def purgeAbortedSeqWatermark (s : TxLogStore T X) (table : T) (asOfMicros : Option Int) : Option Int :=
  ((s.purgesOf table asOfMicros).filterMap TablePurge.lastPurgedAbortedSeqNum).max?

/-- Phase 2 of Purge: the hot deletes and the purge row. -/
def commitTablePurge (s : TxLogStore T X) (table : T) (pu pa : Option Int) : TxLogStore T X :=
  let doomed := pu.elim [] s.committedUpTo ++ pa.elim [] s.abortedBelow
  { s.deleteHotRows table doomed with tablePurges := s.tablePurges ++ [⟨table, pu, pa, s.clock⟩] }

/-- `purge_locked`. -/
def purge (s : TxLogStore T X) (table : T) : TxLogStore T X :=
  let swept := s.deleteHotRows table (s.expiredBegin s.clock)
  let puAdvance := computePurgeWatermark (s.snapshotSeqWatermark table) (s.purgeSeqWatermark table none)
  let paAdvance := computePurgeWatermark (some s.abortSeqCounter)
    ((s.purgeAbortedSeqWatermark table none).or (some 0))
  if puAdvance.isNone && paAdvance.isNone then swept else swept.commitTablePurge table puAdvance paAdvance

/-! ## `persist_tx_log` -/

/-- `tx_log_persist_watermark`: the greatest number in a committed segment. -/
def txLogPersistWatermark (s : TxLogStore T X) : Option Int :=
  ((s.txLogSegments.filter TxLogSegment.committed).map TxLogSegment.maxCommitSeqNum).max?

/-- The call has returned `Ok`. A Persist goes on to write its segments, with rows up to the target. -/
def returnOk (s : TxLogStore T X) (caller : Option T) (target : Int) : TxLogStore T X :=
  { s with persisted := caller.elim s.persisted (fun table => s.persisted ++ [(table, target)]), flush := none }

def setFile (s : TxLogStore T X) (uuid : Int) (content : Option (List TxLogRecord)) : TxLogStore T X :=
  { s with txLogFiles := Function.update s.txLogFiles uuid content }

def setPhase (s : TxLogStore T X) (f : Flush T X) (phase : FlushPhase X) : TxLogStore T X :=
  { s with flush := some { f with phase := phase } }

/-- `list_uncommitted_tx_log_segments`. -/
def uncommittedTxLogSegments (s : TxLogStore T X) : List Int :=
  (s.txLogSegments.filter (fun seg => !seg.committed)).map TxLogSegment.uuid

/-- `delete_uncommitted_tx_log_persist_segment`. -/
def deleteUncommittedTxLogSegment (s : TxLogStore T X) (uuid : Int) : TxLogStore T X :=
  { s with txLogSegments := s.txLogSegments.filter (fun seg => seg.committed || decide (seg.uuid ≠ uuid)) }

/-- The commit rows above `W_txlog` up to the target, in order. -/
def selectCommitRows (s : TxLogStore T X) (wTxlog target : Int) : List (CommitTxRow X) :=
  (s.commitTxLog.filter (fun c => decide (wTxlog < c.commitSeqNum) && decide (c.commitSeqNum ≤ target))).insertionSort
    (fun a b => a.commitSeqNum ≤ b.commitSeqNum)

end TxLogStore

/-- `max_seq`: the number of the last row. -/
def maxSeq (row : CommitTxRow X) (rows : List (CommitTxRow X)) : Int :=
  ((row :: rows).getLast (List.cons_ne_nil _ _)).commitSeqNum

/-- The segment row `persist_tx_log` inserts. -/
def newTxLogSegment (row : CommitTxRow X) (rows : List (CommitTxRow X)) : TxLogSegment where
  uuid := maxSeq row rows
  minCommitSeqNum := row.commitSeqNum
  maxCommitSeqNum := maxSeq row rows
  minCommitMicros := rows.foldl (fun m c => min m c.commitMicros) row.commitMicros
  maxCommitMicros := rows.foldl (fun m c => max m c.commitMicros) row.commitMicros
  rowCount := (row :: rows).length
  committed := false

/-- What the insert makes of a row it finds under the uuid: everything but the commit mark is replaced. -/
def TxLogSegment.replacedBy (new old : TxLogSegment) : TxLogSegment := { new with uuid := old.uuid, committed := old.committed }

namespace TxLogStore

variable [DecidableEq T] [DecidableEq X]

/-- `insert_tx_log_persist_segment`. -/
def insertTxLogSegment (s : TxLogStore T X) (seg : TxLogSegment) : TxLogStore T X :=
  { s with txLogSegments := Keyed.upsert TxLogSegment.uuid seg.replacedBy s.txLogSegments seg }

/-- `commit_tx_log_persist_segment`. -/
def commitTxLogSegment (s : TxLogStore T X) (uuid : Int) : TxLogStore T X :=
  { s with txLogSegments :=
      Keyed.update TxLogSegment.uuid uuid (fun seg => { seg with committed := true }) s.txLogSegments }

/-- The statements of `persist_tx_log_locked`, one after the other. -/
def flushStatement (s : TxLogStore T X) (f : Flush T X) : Outcome → TxLogStore T X
  | .done =>
      match f.phase with
      | .locked => s.setPhase f (.reclaiming s.uncommittedTxLogSegments)
      | .reclaiming [] =>
          let wTxlog := s.txLogPersistWatermark.getD (-1)
          if f.target ≤ wTxlog then s.returnOk f.caller f.target else s.setPhase f (.selecting wTxlog)
      | .reclaiming (uuid :: uuids) => (s.setFile uuid none).setPhase f (.dropping uuid uuids)
      | .dropping uuid uuids => (s.deleteUncommittedTxLogSegment uuid).setPhase f (.reclaiming uuids)
      | .selecting wTxlog =>
          match s.selectCommitRows wTxlog f.target with
          | []          => s.returnOk f.caller f.target
          | row :: rows => s.setPhase f (.inserting row rows)
      | .inserting row rows => (s.insertTxLogSegment (newTxLogSegment row rows)).setPhase f (.writing row rows)
      | .writing row rows =>
          (s.setFile (maxSeq row rows) (some ((row :: rows).map CommitTxRow.record))).setPhase f
            (.committing (maxSeq row rows))
      | .committing uuid => (s.commitTxLogSegment uuid).returnOk f.caller f.target
      | .discarding uuid => (s.setFile uuid none).setPhase f (.forgetting uuid)
      | .forgetting uuid => { s.deleteUncommittedTxLogSegment uuid with flush := none }
  | .failed left =>
      match f.phase with
      -- The errors of the deletes are ignored; those of the other statements end the call.
      | .reclaiming (uuid :: uuids) => (s.setFile uuid left).setPhase f (.reclaiming uuids)
      | .dropping _ uuids           => s.setPhase f (.reclaiming uuids)
      | .writing row rows           => (s.setFile (maxSeq row rows) left).setPhase f (.discarding (maxSeq row rows))
      | .discarding uuid            => (s.setFile uuid left).setPhase f (.forgetting uuid)
      | .locked | .reclaiming [] | .selecting _ | .inserting _ _ | .committing _ | .forgetting _ =>
          { s with flush := none }

/-! ## `PurgeTxLog` -/

/-- Committed or aborted by the time. -/
def settledBy (s : TxLogStore T X) (micros : Int) (tx : X) : Bool :=
  s.commitTxLog.any (fun c => decide (c.txUuid = tx) && decide (c.commitMicros ≤ micros)) ||
    s.abortTxLog.any (fun a => decide (a.txUuid = tx) && decide (a.abortedAtMicros ≤ micros))

/-- The tables written by a transaction settled by the time. -/
def settledTables (s : TxLogStore T X) (micros : Int) : List T :=
  ((s.txTableLog.filter (fun w => s.settledBy micros w.1)).map Prod.snd).dedup

/-- `tx_table_log_purge_watermarks_for_branch`. -/
def purgeWatermarksForBranch (s : TxLogStore T X) (cleanupStartedAtMicros : Int) :
    List (T × Option Int × Option Int) :=
  (s.settledTables cleanupStartedAtMicros).map (fun table =>
    (table, s.purgeSeqWatermark table (some cleanupStartedAtMicros),
      s.purgeAbortedSeqWatermark table (some cleanupStartedAtMicros)))

end TxLogStore

/-- `compute_purge_tx_log_cutoffs`. -/
def computePurgeTxLogCutoffs (tableWatermarks : List (T × Option Int × Option Int)) : PurgeTxLogCutoffs where
  puCutoff := branchMinWatermark none (tableWatermarks.map (fun w => w.2.1))
  paCutoff := branchMinWatermark none (tableWatermarks.map (fun w => w.2.2))

/-- The committed cutoff clamped to what the cold log covers; without a cold log it is unconstrained. -/
def PurgeTxLogCutoffs.clamp (cutoffs : PurgeTxLogCutoffs) (wTxlog : Option Int) : PurgeTxLogCutoffs :=
  { cutoffs with
    puCutoff := match cutoffs.puCutoff, wTxlog with
      | some pu, some w => some (min pu w)
      | pu,      _      => pu }

theorem PurgeTxLogCutoffs.le_of_clamp (cutoffs : PurgeTxLogCutoffs) {wTxlog : Option Int} {n : Int}
    (hn : (cutoffs.clamp wTxlog).puCutoff = some n) : ∃ pu, cutoffs.puCutoff = some pu ∧ n ≤ pu := by
  unfold clamp at hn
  cases hpu : cutoffs.puCutoff with
  | none => simp [hpu] at hn
  | some pu =>
      refine ⟨pu, rfl, ?_⟩
      cases wTxlog with
      | none =>
          simp only [hpu, Option.some.injEq] at hn
          omega
      | some w =>
          simp only [hpu, Option.some.injEq] at hn
          omega

namespace TxLogStore

variable [DecidableEq T] [DecidableEq X]

/-- Aborted by the time, without a table written. -/
def pureAborted (s : TxLogStore T X) (micros : Int) : List X :=
  (s.abortTxLog.filter (fun a => decide (a.abortedAtMicros ≤ micros) &&
    s.txTableLog.all (fun w => w.1 ≠ a.txUuid))).map AbortTxRow.txUuid

/-- The four branches of `eligible`. -/
def eligible (s : TxLogStore T X) (cutoffs : PurgeTxLogCutoffs) (cleanupStartedAtMicros expiryGraceMicros : Int) :
    List X :=
  cutoffs.puCutoff.elim [] s.committedUpTo ++ cutoffs.paCutoff.elim [] s.abortedBelow ++
    s.pureAborted cleanupStartedAtMicros ++ s.expiredBegin (satSub cleanupStartedAtMicros expiryGraceMicros)

/-- The four deletes of `delete_purge_tx_log_eligible`. -/
def deleteTxs (s : TxLogStore T X) (txs : List X) : TxLogStore T X :=
  { s with
    commitTxLog := s.commitTxLog.filter (fun c => c.txUuid ∉ txs)
    txTableLog := s.txTableLog.filter (fun w => w.1 ∉ txs)
    abortTxLog := s.abortTxLog.filter (fun a => a.txUuid ∉ txs)
    beginTxLog := s.beginTxLog.filter (fun b => b.txUuid ∉ txs) }

/-- The statements of `purge_tx_log_locked` after the clock reading. -/
def collectStatement (cfg : LifecycleConfig) (s : TxLogStore T X) : Collect → TxLogStore T X
  | .started startedAt =>
      { s with collect := some (.watermarked startedAt
          (computePurgeTxLogCutoffs (s.purgeWatermarksForBranch startedAt))) }
  | .watermarked startedAt cutoffs =>
      { s with collect := some (.clamped startedAt (cutoffs.clamp s.txLogPersistWatermark)) }
  | .clamped startedAt cutoffs =>
      { s.deleteTxs (s.eligible cutoffs startedAt cfg.expiredBeginGraceMicros) with collect := none }

end TxLogStore

/-! ## Events -/

inductive TxLogEvent (T X : Type) where
  | tick (now : Int)
  | beginTx (tx : X) (timeoutMicros : Int) (comment author : String)
  | writeData (tx : X) (table : T) (log : LogKind)
  | commitTx (tx : X)
  | abortTx (tx : X)
  /-- A write, a merge or a DDL statement that is its own transaction. -/
  | autoCommit (tx : X) (rows : List (T × LogKind)) (comment author : String)
  /-- A Snapshot of the table commits with this `W_snap`. -/
  | snapshot (table : T) (commitSeqNum : Int)
  | purge (table : T)
  /-- The first read of `persist_tx_log`, without the lock. -/
  | persistTxLog (caller : Option T) (target : Int)
  /-- `persist_tx_log` gets the lock. -/
  | lockTxLog (caller : Option T) (target : Int)
  | flushStatement (outcome : Outcome)
  | flushStops
  /-- `PurgeTxLog` gets its lock and reads the clock. -/
  | purgeTxLog
  | collectStatement
  | collectStops

variable [DecidableEq T] [DecidableEq X]

/-- The target of a Persist is the number of a commit it has read. -/
def TxLogStore.admitsFlush (s : TxLogStore T X) (caller : Option T) (target : Int) : Bool :=
  caller.isNone || s.history.any (fun c => c.commitSeqNum = target)

/-- One event. The clock does not run backwards; a snapshot's `W_snap` is bounded by the segments of the table. -/
def txLogStep (cfg : LifecycleConfig) (s : TxLogStore T X) : TxLogEvent T X → Option (TxLogStore T X)
  | .tick now => if s.clock ≤ now then some { s with clock := now } else none
  | .beginTx tx timeoutMicros comment author =>
      if s.fresh tx then
        some { s with beginTxLog := s.beginTxLog ++ [⟨tx, s.clock + timeoutMicros, comment, author⟩] }
      else none
  | .writeData tx table log =>
      if (s.openTx tx).isSome then some (s.insertHotRows tx [(table, log)]) else none
  | .commitTx tx =>
      (s.openTx tx).map (fun b => if s.refusesCommit then s else s.insertCommit tx b.comment b.author)
  | .abortTx tx => if (s.openTx tx).isSome then some (s.insertAbort tx) else none
  | .autoCommit tx rows comment author =>
      if s.fresh tx then
        some (if s.refusesCommit then s else (s.insertHotRows tx rows).insertCommit tx comment author)
      else none
  | .snapshot table commitSeqNum =>
      if s.persisted.any (fun p => decide (p.1 = table) && decide (commitSeqNum ≤ p.2)) then
        some { s with tableSnapshots := s.tableSnapshots ++ [(table, commitSeqNum)] }
      else none
  | .purge table => some (s.purge table)
  | .persistTxLog caller target =>
      if s.admitsFlush caller target then
        -- A call that is not done here waits for the lock.
        if target ≤ s.txLogPersistWatermark.getD (-1) then
          some { s with persisted := caller.elim s.persisted (fun table => s.persisted ++ [(table, target)]) }
        else some s
      else none
  | .lockTxLog caller target =>
      if s.admitsFlush caller target && s.flush.isNone then some { s with flush := some ⟨caller, target, .locked⟩ }
      else none
  | .flushStatement outcome => s.flush.map (fun f => s.flushStatement f outcome)
  | .flushStops => some { s with flush := none }
  | .purgeTxLog => if s.collect.isNone then some { s with collect := some (.started s.clock) } else none
  | .collectStatement => s.collect.map (fun c => s.collectStatement cfg c)
  | .collectStops => some { s with collect := none }

end Penca
