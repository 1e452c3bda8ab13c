import Penca.Lib.InFlight
import Penca.Lib.Runs
import Penca.Store.State
import Penca.Tx.Writes

/-!
# `Tx.Calls` — the calls on one open transaction, statement by statement

Any number of `CommitTx`, `AbortTx` and `WriteData` calls on a transaction `X`, the expired-begin sweeps of
Purge and the ledger sweeps of `PurgeTxLog` run at the same time, each in Postgres transactions at READ
COMMITTED. `TxSystem` holds what is visible about `X` and the calls in flight; an event is the start of a
call, the start or end of one of its statements, or its end.

- A statement reads the tables as they are when it starts. The status statement of `CommitTx` and `AbortTx`
  is `SELECT … FOR UPDATE OF b`: it waits for the lock on the begin row, and then still returns the commit
  and abort columns of its start (`locking` carries them).
- A row inserted by a Postgres transaction becomes visible when it commits (`inserted`, `writing`).
- `now()` is the time the Postgres transaction started; the clock does not run backwards.
- A `DELETE … WHERE tx_uuid IN (subquery)` evaluates the subquery when it starts (`deleting`).

The counters of the branch, the waits of writers for each other and the order of the inserts of one call are
not modelled: the assigned numbers are part of the event, and every order is allowed.
-/

namespace Penca

variable {R V : Type} [DecidableEq R]

/-! ## What is visible -/

/-- The two ways a transaction ends. -/
inductive EndKind where
  | commit
  | abort
  deriving DecidableEq, Repr

def EndKind.other : EndKind → EndKind
  | .commit => .abort
  | .abort  => .commit

/-- The row a call inserts to end the transaction, in `commit_tx_log` or `abort_tx_log`. -/
inductive EndRow where
  | commit (row : CommitRow)
  | abort (abortedAtMicros : Int)
  deriving DecidableEq, Repr

def EndRow.kind : EndRow → EndKind
  | .commit _ => .commit
  | .abort _  => .abort

/-- What is visible about the transaction; `rows` are its rows in the logs of one table. -/
structure TxTables (R V : Type) where
  begun : Bool
  expiresAtMicros : Int
  commitRow : Option CommitRow
  abortRow : Option Int
  rows : TxWrites R V

/-- `TxStatus`. -/
inductive TxStatus where
  | aborted (abortedAtMicros : Int)
  | committed (commitMicros : Int)
  | expired (expiredAtMicros : Int)
  | opened
  deriving DecidableEq, Repr

namespace TxTables

/-- `get_tx_status`: terminal states first, then expiry. -/
def getTxStatus (t : TxTables R V) (nowMicros : Int) : Option TxStatus :=
  if t.begun then
    some (match t.abortRow, t.commitRow with
      | some abortedAt, _ => .aborted abortedAt
      | none, some row    => .committed row.commitMicros
      | none, none        =>
          if t.expiresAtMicros < nowMicros then .expired t.expiresAtMicros else .opened)
  else none

/-- The subquery of `delete_expired_begin_hot_rows` and of branch 4 of `delete_purge_tx_log_eligible`. -/
def expiredBegin (t : TxTables R V) (bound : Int) : Bool :=
  t.begun && decide (t.expiresAtMicros < bound) && t.commitRow.isNone && t.abortRow.isNone

/-- No visible row of that kind. -/
def Lacks (t : TxTables R V) : EndKind → Prop
  | .commit => t.commitRow = none
  | .abort  => t.abortRow = none

instance (t : TxTables R V) : ∀ kind, Decidable (t.Lacks kind)
  | .commit => inferInstanceAs (Decidable (t.commitRow = none))
  | .abort  => inferInstanceAs (Decidable (t.abortRow = none))

/-- Make an end row visible. -/
def publish (t : TxTables R V) : EndRow → TxTables R V
  | .commit row      => { t with commitRow := some row }
  | .abort abortedAt => { t with abortRow := some abortedAt }

end TxTables

/-- Drop the log rows of some rows from one log. -/
def TxWrites.deleteRows (t : TxWrites R V) (log : LogKind) (doomed : List R) : TxWrites R V where
  writes := t.writes.filter (fun w => !(decide (w.change.kind = log) && decide (w.rowUuid ∈ doomed)))
  oncePerLog := t.oncePerLog.sublist (List.filter_sublist.map _)

/-- A `DELETE` that finds none of its rows changes nothing. -/
theorem TxWrites.deleteRows_eq_self {t : TxWrites R V} {log : LogKind} {doomed : List R}
    (h : ∀ w ∈ t.writes, w.change.kind = log → w.rowUuid ∉ doomed) : t.deleteRows log doomed = t := by
  have hwrites : (t.deleteRows log doomed).writes = t.writes := by
    refine List.filter_eq_self.mpr (fun w hw => ?_)
    by_cases hlog : w.change.kind = log
    · simp [h w hw hlog]
    · simp [hlog]
  cases t
  simpa [deleteRows] using hwrites

/-- The rows with an entry in one log. -/
def TxWrites.rowsOf (t : TxWrites R V) (log : LogKind) : List R :=
  (t.writes.filter (fun w => w.change.kind = log)).map RowWrite.rowUuid

/-! ## Calls -/

inductive CallKind where
  | commitTx
  | abortTx
  | writeData
  | purge
  | purgeTxLog (expiryGraceMicros : Int)
  deriving DecidableEq, Repr

/-- Where a call is. -/
inductive Call (R V : Type) where
  /-- Its clock reading is taken (`now()` of its Postgres transaction, `step1_now` of a sweep). -/
  | started (kind : CallKind) (now : Int)
  /-- The status statement runs and waits for the begin row. -/
  | locking (kind : EndKind) (now : Int) (snapshot : TxTables R V)
  /-- The status was open; the lock on the begin row is held. -/
  | holding (kind : EndKind)
  /-- The end row is inserted and not yet visible. -/
  | inserted (row : EndRow)
  /-- A `WriteData` call that passed its status check, and its log rows so far. -/
  | writing (pending : List (RowWrite R V))
  /-- Purge is about to sweep these logs. -/
  | sweeping (now : Int) (logs : List LogKind)
  /-- A `DELETE` on one log runs; it removes the rows its start selected. -/
  | deleting (now : Int) (log : LogKind) (doomed : List R) (logs : List LogKind)
  /-- The ledger `DELETE` runs. -/
  | collecting (eligible : Bool)

/-- The call holds the lock on the begin row. -/
def Call.holdsLock : Call R V → Bool
  | .holding _  => true
  | .inserted _ => true
  | _           => false

/-- The transaction and the calls on it. -/
structure TxSystem (R V : Type) where
  clock : Int
  writeSequence : Int
  tables : TxTables R V
  calls : List (Nat × Call R V)
  /-- How many `CommitTx` calls reported success. -/
  commitsReported : Nat
  /-- Every log row `WriteData` calls made visible, whether or not a sweep removed it since. -/
  written : TxWrites R V

namespace TxSystem

/-- The transaction just begun. -/
def begun (clock expiresAtMicros : Int) : TxSystem R V where
  clock := clock
  writeSequence := 0
  tables := ⟨true, expiresAtMicros, none, none, TxWrites.empty⟩
  calls := []
  commitsReported := 0
  written := TxWrites.empty

/-- The begin row is locked. -/
def locked (s : TxSystem R V) : Bool := s.calls.any (fun p => p.2.holdsLock)

/-- Move a call on. -/
def setCall (s : TxSystem R V) (id : Nat) (call : Call R V) : TxSystem R V :=
  { s with calls := InFlight.set s.calls id call }

/-- A call ends, by returning or by rolling back. -/
def endCall (s : TxSystem R V) (id : Nat) : TxSystem R V := { s with calls := InFlight.remove s.calls id }

/-- The status statement of `CommitTx` or `AbortTx` starts. Without a begin row it returns at once. -/
def startStatus (s : TxSystem R V) (id : Nat) (kind : EndKind) (now : Int) : TxSystem R V :=
  if s.tables.begun then s.setCall id (.locking kind now s.tables) else s.endCall id

/-- The rows a `DELETE` of the sweep selects in one log: those of a transaction that is expired at `now` and
    has neither end row. -/
def doomed (s : TxSystem R V) (now : Int) (log : LogKind) : List R :=
  if s.tables.expiredBegin now then s.tables.rows.rowsOf log else []

/-- A `DELETE` of the expired-begin sweep starts. -/
def startDelete (s : TxSystem R V) (id : Nat) (now : Int) (log : LogKind) (logs : List LogKind) :
    TxSystem R V :=
  s.setCall id (.deleting now log (s.doomed now log) logs)

/-- The first statement of a call starts. -/
def startCall (s : TxSystem R V) (id : Nat) (now : Int) : CallKind → TxSystem R V
  | .commitTx         => s.startStatus id .commit now
  | .abortTx          => s.startStatus id .abort now
  | .writeData        =>
      if s.tables.getTxStatus now = some .opened then s.setCall id (.writing []) else s.endCall id
  | .purge            => s.startDelete id now .upsertLog [.deleteLog]
  | .purgeTxLog grace => s.setCall id (.collecting (s.tables.expiredBegin (now - grace)))

/-- The status statement gets the lock: the begin row is read again, the joined columns are those of the
    statement's start. -/
def acquire (s : TxSystem R V) (id : Nat) (kind : EndKind) (now : Int) (snapshot : TxTables R V) :
    TxSystem R V :=
  if s.tables.begun && decide (snapshot.getTxStatus now = some .opened) then s.setCall id (.holding kind)
  else s.endCall id

/-- `commit_open_tx` / `abort_tx`: the unconditional insert, refused only by the primary key. -/
def insertEnd (s : TxSystem R V) (id : Nat) (row : EndRow) : TxSystem R V :=
  if s.tables.Lacks row.kind then s.setCall id (.inserted row) else s.endCall id

/-- The Postgres transaction of `CommitTx` or `AbortTx` commits. -/
def publishEnd (s : TxSystem R V) (id : Nat) (row : EndRow) : TxSystem R V :=
  { s.endCall id with
    tables := s.tables.publish row
    commitsReported := s.commitsReported + if row.kind = .commit then 1 else 0 }

/-- The Postgres transaction of `WriteData` commits. -/
def publishRows (s : TxSystem R V) (id : Nat) (pending : List (RowWrite R V)) : TxSystem R V :=
  { s.endCall id with
    tables := { s.tables with rows := s.tables.rows.insertAll pending }
    written := s.written.insertAll pending }

/-- A `DELETE` of the sweep ends; the next log follows. -/
def finishDelete (s : TxSystem R V) (id : Nat) (now : Int) (log : LogKind) (doomed : List R)
    (logs : List LogKind) : TxSystem R V :=
  { s with
    tables := { s.tables with rows := s.tables.rows.deleteRows log doomed }
    calls := if logs.isEmpty then InFlight.remove s.calls id
      else InFlight.set s.calls id (.sweeping now logs) }

/-- The ledger `DELETE` ends. -/
def finishCollect (s : TxSystem R V) (id : Nat) (eligible : Bool) : TxSystem R V :=
  { s.endCall id with tables := { s.tables with begun := s.tables.begun && !eligible } }

end TxSystem

/-! ## Events -/

inductive TxEvent (R V : Type) where
  /-- A call starts and reads the clock. -/
  | start (id : Nat) (kind : CallKind) (now : Int)
  /-- Its next statement starts. -/
  | statement (id : Nat)
  /-- Its status statement gets the lock and returns. -/
  | acquire (id : Nat)
  /-- It inserts its end row, with the numbers the database assigns. -/
  | insertEnd (id : Nat) (row : EndRow)
  /-- It inserts a log row. -/
  | insertRow (id : Nat) (rowUuid : R) (change : Change V)
  /-- Its Postgres transaction commits, or its sweeping statement ends. -/
  | finish (id : Nat)
  /-- It fails and rolls back. -/
  | fail (id : Nat)

/-- One event; `none` when the call is not at that point, or has to wait. -/
def txStep (s : TxSystem R V) : TxEvent R V → Option (TxSystem R V)
  | .start id kind now =>
      if s.clock ≤ now ∧ s.calls.lookup id = none then
        some { s.setCall id (.started kind now) with clock := now }
      else none
  | .statement id =>
      match s.calls.lookup id with
      | some (.started kind now)            => some (s.startCall id now kind)
      | some (.sweeping now (log :: logs))  => some (s.startDelete id now log logs)
      | _                                   => none
  | .acquire id =>
      match s.calls.lookup id with
      | some (.locking kind now snapshot) => if s.locked then none else some (s.acquire id kind now snapshot)
      | _                                 => none
  | .insertEnd id row =>
      match s.calls.lookup id with
      | some (.holding kind) => if row.kind = kind then some (s.insertEnd id row) else none
      | _                    => none
  | .insertRow id rowUuid change =>
      match s.calls.lookup id with
      | some (.writing pending) =>
          some { s.setCall id (.writing (pending ++ [⟨rowUuid, change, s.writeSequence⟩])) with
            writeSequence := s.writeSequence + 1 }
      | _ => none
  | .finish id =>
      match s.calls.lookup id with
      | some (.inserted row)                  => some (s.publishEnd id row)
      | some (.writing pending)               => some (s.publishRows id pending)
      | some (.deleting now log doomed logs)  => some (s.finishDelete id now log doomed logs)
      | some (.collecting eligible)           =>
          if eligible && s.locked then none else some (s.finishCollect id eligible)
      | _                                     => none
  | .fail id =>
      match s.calls.lookup id with
      | some _ => some (s.endCall id)
      | none   => none

/-! ## What an event can do -/

/-- The call that ends the transaction this way. -/
def EndKind.callKind : EndKind → CallKind
  | .commit => .commitTx
  | .abort  => .abortTx

/-- The `DELETE` a sweep starts next: its clock reading, the log, the logs after it. -/
def Call.nextDelete : Call R V → Option (Int × LogKind × List LogKind)
  | .started .purge now         => some (now, .upsertLog, [.deleteLog])
  | .sweeping now (log :: logs) => some (now, log, logs)
  | _                           => none

/-- **Inversion.** The effects an event can have; `ended` is every way for a call to end without effect. -/
inductive Transition (s : TxSystem R V) : TxEvent R V → TxSystem R V → Prop where
  | start {id kind now} (hclock : s.clock ≤ now) (hfresh : s.calls.lookup id = none) :
      Transition s (.start id kind now) { s.setCall id (.started kind now) with clock := now }
  | ended {ev id call} (hcall : s.calls.lookup id = some call) : Transition s ev (s.endCall id)
  | status {ev id kind now} (hcall : s.calls.lookup id = some (.started (EndKind.callKind kind) now))
      (hbegun : s.tables.begun = true) : Transition s ev (s.setCall id (.locking kind now s.tables))
  | check {ev id now} (hcall : s.calls.lookup id = some (.started .writeData now))
      (hopen : s.tables.getTxStatus now = some .opened) : Transition s ev (s.setCall id (.writing []))
  | startDelete {id call now log logs} (hcall : s.calls.lookup id = some call)
      (hnext : call.nextDelete = some (now, log, logs)) :
      Transition s (.statement id) (s.startDelete id now log logs)
  | startCollect {ev id now grace} (hcall : s.calls.lookup id = some (.started (.purgeTxLog grace) now)) :
      Transition s ev (s.setCall id (.collecting (s.tables.expiredBegin (now - grace))))
  | acquire {ev id kind now snapshot} (hcall : s.calls.lookup id = some (.locking kind now snapshot))
      (hfree : s.locked = false) (hopen : snapshot.getTxStatus now = some .opened) :
      Transition s ev (s.setCall id (.holding kind))
  | insertEnd {ev id row} (hcall : s.calls.lookup id = some (.holding (EndRow.kind row)))
      (hlacks : s.tables.Lacks row.kind) : Transition s ev (s.setCall id (.inserted row))
  | insertRow {ev id pending w} (hcall : s.calls.lookup id = some (.writing pending)) :
      Transition s ev { s.setCall id (.writing (pending ++ [w])) with writeSequence := s.writeSequence + 1 }
  | publishEnd {id row} (hcall : s.calls.lookup id = some (.inserted row)) :
      Transition s (.finish id) (s.publishEnd id row)
  | publishRows {ev id pending} (hcall : s.calls.lookup id = some (.writing pending)) :
      Transition s ev (s.publishRows id pending)
  | finishDelete {id now log doomed logs} (hcall : s.calls.lookup id = some (.deleting now log doomed logs)) :
      Transition s (.finish id) (s.finishDelete id now log doomed logs)
  | finishCollect {ev id eligible} (hcall : s.calls.lookup id = some (.collecting eligible)) :
      Transition s ev (s.finishCollect id eligible)

section Inversion

variable {s s' : TxSystem R V} {id : Nat}

theorem TxSystem.finishDelete_calls (s : TxSystem R V) (id : Nat) (now : Int) (log : LogKind) (doomed : List R)
    (logs : List LogKind) :
    (s.finishDelete id now log doomed logs).calls = InFlight.remove s.calls id ∨
      (s.finishDelete id now log doomed logs).calls = InFlight.set s.calls id (.sweeping now logs) := by
  unfold finishDelete
  split
  · exact Or.inl rfl
  · exact Or.inr rfl

theorem transition_startCall {kind : CallKind} {now : Int} (hcall : s.calls.lookup id = some (.started kind now)) :
    Transition s (.statement id) (s.startCall id now kind) := by
  have hstatus : ∀ kind : EndKind, s.calls.lookup id = some (.started kind.callKind now) →
      Transition s (.statement id) (s.startStatus id kind now) := by
    intro kind hcall
    unfold TxSystem.startStatus
    split
    · rename_i hbegun
      exact .status hcall hbegun
    · exact .ended hcall
  cases kind with
  | commitTx => exact hstatus .commit hcall
  | abortTx => exact hstatus .abort hcall
  | writeData =>
      simp only [TxSystem.startCall]
      split
      · rename_i hopen
        exact .check hcall hopen
      · exact .ended hcall
  | purge => exact .startDelete hcall rfl
  | purgeTxLog grace => exact .startCollect hcall

theorem transition_of_txStep {ev : TxEvent R V} (h : txStep s ev = some s') : Transition s ev s' := by
  cases ev with
  | start id kind now =>
      simp only [txStep, Option.ite_none_right_eq_some, Option.some.injEq] at h
      obtain ⟨⟨hclock, hfresh⟩, rfl⟩ := h
      exact .start hclock hfresh
  | statement id =>
      simp only [txStep] at h
      split at h
      · rename_i hcall
        cases h
        exact transition_startCall hcall
      · rename_i hcall
        cases h
        exact .startDelete hcall rfl
      · cases h
  | acquire id =>
      simp only [txStep] at h
      split at h
      · simp only [Option.ite_none_left_eq_some, Option.some.injEq] at h
        obtain ⟨hfree, rfl⟩ := h
        unfold TxSystem.acquire
        split
        · rename_i hcond
          simp only [Bool.and_eq_true, decide_eq_true_eq] at hcond
          exact .acquire ‹_› (by simpa using hfree) hcond.2
        · exact .ended ‹_›
      · cases h
  | insertEnd id row =>
      simp only [txStep] at h
      split at h
      · rename_i kind hcall
        simp only [Option.ite_none_right_eq_some, Option.some.injEq] at h
        obtain ⟨rfl, rfl⟩ := h
        unfold TxSystem.insertEnd
        split
        · exact .insertEnd hcall ‹_›
        · exact .ended hcall
      · cases h
  | insertRow id rowUuid change =>
      simp only [txStep] at h
      split at h
      · cases h
        exact .insertRow ‹_›
      · cases h
  | finish id =>
      simp only [txStep] at h
      split at h
      · cases h
        exact .publishEnd ‹_›
      · cases h
        exact .publishRows ‹_›
      · cases h
        exact .finishDelete ‹_›
      · simp only [Option.ite_none_left_eq_some, Option.some.injEq] at h
        obtain ⟨-, rfl⟩ := h
        exact .finishCollect ‹_›
      · cases h
  | fail id =>
      simp only [txStep] at h
      split at h
      · cases h
        exact .ended ‹_›
      · cases h

end Inversion

end Penca
