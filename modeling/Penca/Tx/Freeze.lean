import Penca.Tx.Exclusion

/-!
# `Tx.Freeze` — a committed transaction does not change

`WriteData` checks the status of its transaction without a lock and makes its rows visible when its own
Postgres transaction commits. A call that passed the check before the commit of `X` became visible can add
rows to `X` afterwards. If no call is in between when the commit row becomes visible (`NoWriterAtCommit`), the
rows of `X` stay what they were then, until Purge removes them (`frozen_run`).
-/

namespace Penca

variable {R V : Type} [DecidableEq R]

/-- A `WriteData` call past its status check. -/
def Call.isWriting : Call R V → Bool
  | .writing _ => true
  | _          => false

/-- A `DELETE` of the sweep runs that selected log rows which are still there. -/
def Call.RemovesFrom (t : TxTables R V) : Call R V → Prop
  | .deleting _ log doomed _ => ∃ w ∈ t.rows.writes, w.change.kind = log ∧ w.rowUuid ∈ doomed
  | _                        => False

instance (t : TxTables R V) : ∀ call : Call R V, Decidable (call.RemovesFrom t)
  | .deleting _ log doomed _ =>
      inferInstanceAs (Decidable (∃ w ∈ t.rows.writes, w.change.kind = log ∧ w.rowUuid ∈ doomed))
  | .started _ _      => isFalse id
  | .locking _ _ _    => isFalse id
  | .holding _        => isFalse id
  | .inserted _       => isFalse id
  | .writing _        => isFalse id
  | .sweeping _ _     => isFalse id
  | .collecting _     => isFalse id

/-- What a `LatestSeq` or `AsOfSeq` read pinned at `seq` sees of the transaction in hot. -/
def TxTables.seenAt (t : TxTables R V) (seq : Int) : List (LogEntry R V) :=
  match t.commitRow with
  | some row =>
      if row.commitSeqNum ≤ seq then (CommittedTx.mk row.commitSeqNum row.commitMicros t.rows).entries else []
  | none     => []

/-- The guard on an event: when the commit row becomes visible, no writer is past its check. -/
def NoWriterAtCommit (s : TxSystem R V) : TxEvent R V → Prop
  | .finish id => ∀ row ∈ s.endRowOf id, row.kind = .commit → ∀ p ∈ s.calls, p.2.isWriting = false
  | _          => True

/-- The event is not a sweep removing rows. -/
def NotPurged (s : TxSystem R V) : TxEvent R V → Prop
  | .finish id => ∀ call ∈ s.calls.lookup id, ¬ call.RemovesFrom s.tables
  | _          => True

instance (s : TxSystem R V) : ∀ ev, Decidable (NoWriterAtCommit s ev)
  | .finish id        => inferInstanceAs (Decidable (∀ row ∈ s.endRowOf id, _))
  | .start _ _ _      => isTrue trivial
  | .statement _      => isTrue trivial
  | .acquire _        => isTrue trivial
  | .insertEnd _ _    => isTrue trivial
  | .insertRow _ _ _  => isTrue trivial
  | .fail _           => isTrue trivial

instance (s : TxSystem R V) : ∀ ev, Decidable (NotPurged s ev)
  | .finish id        => inferInstanceAs (Decidable (∀ call ∈ s.calls.lookup id, _))
  | .start _ _ _      => isTrue trivial
  | .statement _      => isTrue trivial
  | .acquire _        => isTrue trivial
  | .insertEnd _ _    => isTrue trivial
  | .insertRow _ _ _  => isTrue trivial
  | .fail _           => isTrue trivial

/-! ## No writer after the commit -/

/-- Once the commit row is visible, no writer is past its check. -/
structure FreezeInv (s : TxSystem R V) : Prop extends LockInv s where
  quiet : s.tables.commitRow.isSome = true → ∀ p ∈ s.calls, p.2.isWriting = false

section Freeze

variable {s s' : TxSystem R V} {id : Nat}

omit [DecidableEq R] in
theorem FreezeInv.of_set (hinv : FreezeInv s) (hlock : LockInv s')
    (hcommit : s'.tables.commitRow = s.tables.commitRow) {call : Call R V}
    (hcalls : s'.calls = InFlight.set s.calls id call)
    (hcall : s.tables.commitRow.isSome = true → call.isWriting = false) : FreezeInv s' where
  toLockInv := hlock
  quiet := by
    intro hsome
    rw [hcommit] at hsome
    rw [hcalls]
    exact InFlight.forall_mem_set (hinv.quiet hsome) (hcall hsome)

omit [DecidableEq R] in
theorem FreezeInv.of_remove (hinv : FreezeInv s) (hlock : LockInv s')
    (hcommit : s'.tables.commitRow = s.tables.commitRow)
    (hcalls : s'.calls = InFlight.remove s.calls id) : FreezeInv s' where
  toLockInv := hlock
  quiet := by
    intro hsome
    rw [hcommit] at hsome
    rw [hcalls]
    exact InFlight.forall_mem_remove (hinv.quiet hsome)

omit [DecidableEq R] in
/-- A committed transaction is not open. -/
theorem TxTables.commitRow_eq_none_of_opened {t : TxTables R V} {now : Int}
    (h : t.getTxStatus now = some .opened) : t.commitRow = none := lacks_of_opened h .commit

/-- **Step.** The guard matters only until the commit row is visible: it is published once. -/
theorem FreezeInv.step {ev : TxEvent R V} (hinv : FreezeInv s)
    (hguard : s.tables.commitRow = none → NoWriterAtCommit s ev) (h : txStep s ev = some s') :
    FreezeInv s' := by
  have hlock := hinv.toLockInv.step h
  have hquiet : ∀ {id call}, s.calls.lookup id = some call → s.tables.commitRow.isSome = true →
      call.isWriting = false := fun hcall hsome => hinv.quiet hsome _ (InFlight.mem_of_lookup hcall)
  cases transition_of_txStep h with
  | start _ _ => exact hinv.of_set hlock rfl rfl (fun _ => rfl)
  | ended _ => exact hinv.of_remove hlock rfl rfl
  | status _ _ => exact hinv.of_set hlock rfl rfl (fun _ => rfl)
  | check _ hopen =>
      -- A writer that passes its check sees no commit row.
      refine hinv.of_set hlock rfl rfl (fun hsome => ?_)
      rw [TxTables.commitRow_eq_none_of_opened hopen] at hsome
      cases hsome
  | startDelete _ _ => exact hinv.of_set hlock rfl rfl (fun _ => rfl)
  | startCollect _ => exact hinv.of_set hlock rfl rfl (fun _ => rfl)
  | acquire _ _ _ => exact hinv.of_set hlock rfl rfl (fun _ => rfl)
  | insertEnd _ _ => exact hinv.of_set hlock rfl rfl (fun _ => rfl)
  | insertRow hcall =>
      refine hinv.of_set hlock rfl rfl (fun hsome => ?_)
      cases hquiet hcall hsome
  | @publishEnd id row hcall =>
      cases row with
      | commit row =>
          have hnone : s.tables.commitRow = none :=
            hinv.unpublished _ (InFlight.mem_of_lookup hcall) _ rfl
          have hrow : EndRow.commit row ∈ s.endRowOf id := by simp [TxSystem.endRowOf, hcall]
          refine ⟨hlock, fun _ => InFlight.forall_mem_remove ?_⟩
          exact hguard hnone _ hrow rfl
      | abort abortedAt => exact hinv.of_remove hlock rfl rfl
  | publishRows _ => exact hinv.of_remove hlock rfl rfl
  | finishDelete _ =>
      rcases s.finishDelete_calls _ _ _ _ _ with hcalls | hcalls
      · exact hinv.of_remove hlock rfl hcalls
      · exact hinv.of_set hlock rfl hcalls (fun _ => rfl)
  | finishCollect _ => exact hinv.of_remove hlock rfl rfl

/-- **Frozen step.** After the commit, an event that removes no rows changes neither the commit row nor the
    rows. -/
theorem FreezeInv.frozen_step {ev : TxEvent R V} (hinv : FreezeInv s) {row : CommitRow}
    (hcommit : s.tables.commitRow = some row) (hkeep : NotPurged s ev) (h : txStep s ev = some s') :
    s'.tables.commitRow = some row ∧ s'.tables.rows = s.tables.rows := by
  cases transition_of_txStep h with
  | start _ _ | ended _ | status _ _ | check _ _ | startDelete _ _ | startCollect _ | acquire _ _ _
    | insertEnd _ _ | insertRow _ | finishCollect _ => exact ⟨hcommit, rfl⟩
  | @publishEnd id endRow hcall =>
      cases endRow with
      | commit row' =>
          have hnone : s.tables.commitRow = none :=
            hinv.unpublished _ (InFlight.mem_of_lookup hcall) _ rfl
          rw [hcommit] at hnone
          cases hnone
      | abort abortedAt => exact ⟨hcommit, rfl⟩
  | publishRows hcall =>
      -- No writer is left to publish rows.
      have hquiet := hinv.quiet (by rw [hcommit]; rfl) _ (InFlight.mem_of_lookup hcall)
      cases hquiet
  | @finishDelete id now log doomed logs hcall =>
      refine ⟨hcommit, TxWrites.deleteRows_eq_self (fun w hw hlog hmem => ?_)⟩
      exact hkeep _ hcall ⟨w, hw, hlog, hmem⟩

/-- The transaction is committed with this row and has these log rows. -/
structure Frozen (row : CommitRow) (rows : TxWrites R V) (s : TxSystem R V) : Prop extends FreezeInv s where
  commitRow : s.tables.commitRow = some row
  rows : s.tables.rows = rows

theorem Frozen.step {row : CommitRow} {rows : TxWrites R V} {ev : TxEvent R V} (hinv : Frozen row rows s)
    (hkeep : NotPurged s ev) (h : txStep s ev = some s') : Frozen row rows s' := by
  obtain ⟨hrow, hrows⟩ := hinv.frozen_step hinv.commitRow hkeep h
  refine ⟨hinv.toFreezeInv.step (fun hnone => ?_) h, hrow, hrows.trans hinv.rows⟩
  rw [hinv.commitRow] at hnone
  cases hnone

end Freeze

theorem freezeInv_run {clock expiresAt : Int} {evs : List (TxEvent R V)} {s : TxSystem R V}
    (hmeets : Runs.Meets txStep NoWriterAtCommit (TxSystem.begun clock expiresAt) evs)
    (hrun : Runs.run txStep (TxSystem.begun clock expiresAt) evs = some s) : FreezeInv s := by
  have hbegun : FreezeInv (TxSystem.begun clock expiresAt : TxSystem R V) :=
    ⟨LockInv.begun clock expiresAt, by simp [TxSystem.begun]⟩
  exact Runs.invariant_of_step (fun _ _ _ hinv hguard h => hinv.step (fun _ => hguard) h) hbegun hmeets hrun

/-- **Frozen after commit.** If no writer was past its check when the commit row became visible, then from any
    state in which it is visible the row and the log rows of the transaction stay the same, whatever the calls
    do, until a sweep of Purge removes rows. In particular two reads pinned at one sequence number see the
    same. -/
theorem frozen_run {clock expiresAt : Int} {evs later : List (TxEvent R V)} {s s' : TxSystem R V}
    {row : CommitRow} (hmeets : Runs.Meets txStep NoWriterAtCommit (TxSystem.begun clock expiresAt) evs)
    (hrun : Runs.run txStep (TxSystem.begun clock expiresAt) evs = some s)
    (hcommit : s.tables.commitRow = some row) (hkeep : Runs.Meets txStep NotPurged s later)
    (hlater : Runs.run txStep s later = some s') :
    s'.tables.commitRow = some row ∧ s'.tables.rows = s.tables.rows ∧
      ∀ seq, s'.tables.seenAt seq = s.tables.seenAt seq := by
  have hstep : ∀ m ev m', Frozen row s.tables.rows m → NotPurged m ev → txStep m ev = some m' →
      Frozen row s.tables.rows m' := fun _ _ _ hinv hkeep h => hinv.step hkeep h
  have hstart : Frozen row s.tables.rows s := ⟨freezeInv_run hmeets hrun, hcommit, rfl⟩
  have hend := Runs.invariant_of_step hstep hstart hkeep hlater
  refine ⟨hend.commitRow, hend.rows, fun seq => ?_⟩
  simp only [TxTables.seenAt, hend.commitRow, hend.rows, hcommit]

/-- A writer checks the status, the commit becomes visible, the writer inserts and commits. -/
def lateWriterRun : List (TxEvent Nat Nat) :=
  [.start 0 .writeData 5, .statement 0, .start 1 .commitTx 6, .statement 1, .acquire 1,
    .insertEnd 1 (.commit ⟨0, 7⟩), .finish 1]

/-- The committed transaction gains a row, and reads at its sequence number change. -/
theorem lateWriterRun_not_frozen :
    ∃ s, Runs.run txStep (TxSystem.begun 0 100) lateWriterRun = some s ∧
      s.tables.commitRow = some ⟨0, 7⟩ ∧ s.tables.seenAt 0 = [] ∧
      ∃ s', Runs.run txStep s [.insertRow 0 1 (.upsert 100), .finish 0] = some s' ∧
        s'.tables.seenAt 0 = [⟨1, .upsert 100, 0, 0, 7⟩] := by
  have hend : (Runs.run txStep (TxSystem.begun 0 100) lateWriterRun).bind (fun s =>
      (Runs.run txStep s [.insertRow 0 1 (.upsert 100), .finish 0]).map (fun s' =>
        decide (s.tables.commitRow = some ⟨0, 7⟩ ∧ s.tables.seenAt 0 = [] ∧
          s'.tables.seenAt 0 = [⟨1, .upsert 100, 0, 0, 7⟩]))) = some true := by decide +kernel
  obtain ⟨s, hrun, hend⟩ := Option.bind_eq_some_iff.mp hend
  obtain ⟨s', hlater, hend⟩ := Option.map_eq_some_iff.mp hend
  obtain ⟨hcommit, hbefore, hafter⟩ := of_decide_eq_true hend
  exact ⟨s, hrun, hcommit, hbefore, s', hlater, hafter⟩

/-- One writer is done before the commit becomes visible, another checks the status after it. -/
def earlyWriterRun : List (TxEvent Nat Nat) :=
  [.start 0 .writeData 5, .statement 0, .start 1 .commitTx 6, .statement 1, .insertRow 0 1 (.upsert 100),
    .acquire 1, .insertEnd 1 (.commit ⟨0, 7⟩), .finish 0, .start 2 .writeData 8, .finish 1]

/-- The second writer and an abort are refused, and a sweep after the expiry selects nothing. -/
def earlyWriterRunLater : List (TxEvent Nat Nat) :=
  [.statement 2, .start 3 .abortTx 9, .statement 3, .acquire 3, .start 4 .purge 101, .statement 4, .finish 4,
    .statement 4, .finish 4]

theorem earlyWriterRun_frozen :
    ∃ s s', Runs.run txStep (TxSystem.begun 0 100) earlyWriterRun = some s ∧
      Runs.run txStep s earlyWriterRunLater = some s' ∧
      s.tables.seenAt 0 = [⟨1, .upsert 100, 0, 0, 7⟩] ∧ s'.tables.commitRow = some ⟨0, 7⟩ ∧
      s'.tables.rows = s.tables.rows ∧ ∀ seq, s'.tables.seenAt seq = s.tables.seenAt seq := by
  have hmeets : Runs.Meets txStep NoWriterAtCommit (TxSystem.begun 0 100) earlyWriterRun := by decide +kernel
  have hend : (Runs.run txStep (TxSystem.begun 0 100) earlyWriterRun).bind (fun s =>
      (Runs.run txStep s earlyWriterRunLater).map (fun _ =>
        decide (s.tables.commitRow = some ⟨0, 7⟩ ∧ s.tables.seenAt 0 = [⟨1, .upsert 100, 0, 0, 7⟩] ∧
          Runs.Meets txStep NotPurged s earlyWriterRunLater)))
        = some true := by decide +kernel
  obtain ⟨s, hrun, hend⟩ := Option.bind_eq_some_iff.mp hend
  obtain ⟨s', hlater, hend⟩ := Option.map_eq_some_iff.mp hend
  obtain ⟨hcommit, hseen, hkeep⟩ := of_decide_eq_true hend
  exact ⟨s, s', hrun, hlater, hseen, frozen_run hmeets hrun hcommit hkeep hlater⟩

end Penca
