import Penca.Tx.Calls

/-!
# `Tx.Expiry` — late commits against the expired-begin sweep

`CommitTx` compares the expiry with `now()` of its own Postgres transaction, Purge with a clock reading of its
own, and neither locks against the other. A commit that passed its check can wait for the counter of the
branch until the transaction is expired; a sweep that runs then deletes the rows, and the commit still
succeeds.

If no commit is on its way when a sweep selects rows of the transaction (`NoCommitOnTheWay`), a visible commit
row always finds every row ever written (`intact_run`).
-/

namespace Penca

variable {R V : Type} [DecidableEq R]

/-! ## Definitions -/

/-- The call can still commit the transaction: it began in time and is not yet refused. -/
def Call.MayCommit (expiresAtMicros : Int) : Call R V → Prop
  | .started .commitTx now        => now ≤ expiresAtMicros
  | .locking .commit now snapshot => snapshot.getTxStatus now = some .opened
  | .holding .commit              => True
  | .inserted (.commit _)         => True
  | _                             => False

instance (expiresAtMicros : Int) : ∀ call : Call R V, Decidable (call.MayCommit expiresAtMicros)
  | .started .commitTx now        => inferInstanceAs (Decidable (now ≤ expiresAtMicros))
  | .started .abortTx _           => isFalse id
  | .started .writeData _         => isFalse id
  | .started .purge _             => isFalse id
  | .started (.purgeTxLog _) _    => isFalse id
  | .locking .commit now snapshot => inferInstanceAs (Decidable (snapshot.getTxStatus now = some .opened))
  | .locking .abort _ _           => isFalse id
  | .holding .commit              => isTrue trivial
  | .holding .abort               => isFalse id
  | .inserted (.commit _)         => isTrue trivial
  | .inserted (.abort _)          => isFalse id
  | .writing _                    => isFalse id
  | .sweeping _ _                 => isFalse id
  | .deleting _ _ _ _             => isFalse id
  | .collecting _                 => isFalse id

/-- No call in flight can commit the transaction. -/
def TxSystem.NoneMayCommit (s : TxSystem R V) : Prop :=
  ∀ p ∈ s.calls, ¬ p.2.MayCommit s.tables.expiresAtMicros

/-- The rows the next statement of the call selects for deletion. -/
def TxSystem.doomedBy (s : TxSystem R V) (id : Nat) : List R :=
  match (s.calls.lookup id).bind Call.nextDelete with
  | some (now, log, _) => s.doomed now log
  | none               => []

/-- The guard on an event: a `DELETE` of the sweep that selects rows of the transaction starts only when no
    commit of it is on its way. -/
def NoCommitOnTheWay (s : TxSystem R V) : TxEvent R V → Prop
  | .statement id => s.doomedBy id ≠ [] → s.NoneMayCommit
  | _             => True

instance (s : TxSystem R V) : Decidable s.NoneMayCommit :=
  inferInstanceAs (Decidable (∀ p ∈ s.calls, ¬ _))

instance (s : TxSystem R V) : ∀ ev, Decidable (NoCommitOnTheWay s ev)
  | .statement id     => inferInstanceAs (Decidable (s.doomedBy id ≠ [] → s.NoneMayCommit))
  | .start _ _ _      => isTrue trivial
  | .acquire _        => isTrue trivial
  | .insertEnd _ _    => isTrue trivial
  | .insertRow _ _ _  => isTrue trivial
  | .finish _         => isTrue trivial
  | .fail _           => isTrue trivial

/-- The clock reading of a sweep. -/
def Call.sweepNow : Call R V → Option Int
  | .started .purge now => some now
  | .sweeping now _     => some now
  | .deleting now _ _ _ => some now
  | _                   => none

/-- A `DELETE` that runs and has rows to remove. -/
def Call.Dooms : Call R V → Prop
  | .deleting _ _ doomed _ => doomed ≠ []
  | _                      => False

/-- Rows are gone, or about to go. -/
def TxSystem.Lost (s : TxSystem R V) : Prop := s.tables.rows ≠ s.written ∨ ∃ p ∈ s.calls, p.2.Dooms

/-! ## One event -/

section Step

variable {s s' : TxSystem R V} {ev : TxEvent R V}

omit [DecidableEq R] in
/-- An open status is not expired. -/
theorem TxTables.le_of_opened {t : TxTables R V} {now : Int} (h : t.getTxStatus now = some .opened) :
    now ≤ t.expiresAtMicros := by
  unfold getTxStatus at h
  split at h
  · split at h
    · simp at h
    · simp at h
    · split at h
      · simp at h
      · omega
  · simp at h

/-- The expiry never changes and the clock moves forward. -/
theorem expiresAt_clock_of_txStep (h : txStep s ev = some s') :
    s'.tables.expiresAtMicros = s.tables.expiresAtMicros ∧ s.clock ≤ s'.clock := by
  cases transition_of_txStep h with
  | start hclock _ => exact ⟨rfl, hclock⟩
  | publishEnd _ =>
      rename_i row _
      cases row <;> exact ⟨rfl, le_refl _⟩
  | ended _ | status _ _ | check _ _ | startDelete _ _ | startCollect _ | acquire _ _ _ | insertEnd _ _
    | insertRow _ | publishRows _ | finishDelete _ | finishCollect _ => exact ⟨rfl, le_refl _⟩

/-- Past the expiry, no event lets a call commit that could not before. -/
theorem noneMayCommit_of_txStep (hexp : s.tables.expiresAtMicros < s.clock) (hnone : s.NoneMayCommit)
    (h : txStep s ev = some s') : s'.NoneMayCommit ∧ s'.tables.commitRow = s.tables.commitRow := by
  have hown : ∀ {id call}, s.calls.lookup id = some call → ¬ call.MayCommit s.tables.expiresAtMicros :=
    fun hcall => hnone _ (InFlight.mem_of_lookup hcall)
  cases transition_of_txStep h with
  | @start id kind now hclock _ =>
      refine ⟨InFlight.forall_mem_set hnone ?_, rfl⟩
      cases kind with
      | commitTx =>
          -- A call that starts now reads the clock past the expiry.
          show ¬ now ≤ s.tables.expiresAtMicros
          omega
      | abortTx | writeData | purge | purgeTxLog _ => exact not_false
  | ended _ => exact ⟨InFlight.forall_mem_remove hnone, rfl⟩
  | @status _ id kind now hcall _ =>
      refine ⟨InFlight.forall_mem_set hnone ?_, rfl⟩
      cases kind with
      | commit =>
          -- An open status needs a clock reading in time, and the call has none.
          exact fun hopen => hown hcall (TxTables.le_of_opened hopen)
      | abort => exact not_false
  | check _ _ => exact ⟨InFlight.forall_mem_set hnone not_false, rfl⟩
  | startDelete _ _ => exact ⟨InFlight.forall_mem_set hnone not_false, rfl⟩
  | startCollect _ => exact ⟨InFlight.forall_mem_set hnone not_false, rfl⟩
  | @acquire _ id kind _ _ hcall _ hopen =>
      refine ⟨InFlight.forall_mem_set hnone ?_, rfl⟩
      cases kind with
      | commit => exact absurd hopen (hown hcall)
      | abort => exact not_false
  | @insertEnd _ id row hcall _ =>
      refine ⟨InFlight.forall_mem_set hnone ?_, rfl⟩
      cases row with
      | commit row => exact absurd trivial (hown hcall)
      | abort _ => exact not_false
  | insertRow _ => exact ⟨InFlight.forall_mem_set hnone not_false, rfl⟩
  | @publishEnd id row hcall =>
      cases row with
      | commit row => exact absurd trivial (hown hcall)
      | abort _ => exact ⟨InFlight.forall_mem_remove hnone, rfl⟩
  | publishRows _ => exact ⟨InFlight.forall_mem_remove hnone, rfl⟩
  | finishDelete _ =>
      refine ⟨?_, rfl⟩
      unfold TxSystem.NoneMayCommit
      rcases s.finishDelete_calls _ _ _ _ _ with hcalls | hcalls
      · rw [hcalls]
        exact InFlight.forall_mem_remove hnone
      · rw [hcalls]
        exact InFlight.forall_mem_set hnone not_false
  | finishCollect _ => exact ⟨InFlight.forall_mem_remove hnone, rfl⟩

omit [DecidableEq R] in
theorem TxSystem.Lost.of_set (hlost : s'.Lost) (hrows : s'.tables.rows = s.tables.rows)
    (hwritten : s'.written = s.written) {id : Nat} {call : Call R V}
    (hcalls : s'.calls = InFlight.set s.calls id call) (hnot : ¬ call.Dooms) : s.Lost := by
  rcases hlost with hne | ⟨p, hp, hdooms⟩
  · exact Or.inl (by rwa [hrows, hwritten] at hne)
  · rw [hcalls] at hp
    rcases InFlight.mem_set.mp hp with rfl | ⟨hp, -⟩
    · exact absurd hdooms hnot
    · exact Or.inr ⟨p, hp, hdooms⟩

omit [DecidableEq R] in
theorem TxSystem.Lost.of_remove (hlost : s'.Lost) (hrows : s.tables.rows = s.written → s'.tables.rows = s'.written)
    {id : Nat} (hcalls : s'.calls = InFlight.remove s.calls id) : s.Lost := by
  rcases hlost with hne | ⟨p, hp, hdooms⟩
  · exact Or.inl (fun heq => hne (hrows heq))
  · rw [hcalls] at hp
    exact Or.inr ⟨p, (InFlight.mem_remove.mp hp).1, hdooms⟩

/-- Rows are lost, or doomed, only by a sweep that selects some. -/
theorem lost_of_txStep (h : txStep s ev = some s') (hlost : s'.Lost) :
    s.Lost ∨ ∃ id, ev = .statement id ∧ s.doomedBy id ≠ [] := by
  cases transition_of_txStep h with
  | start _ _ => exact Or.inl (hlost.of_set rfl rfl rfl not_false)
  | ended _ => exact Or.inl (hlost.of_remove (fun heq => heq) rfl)
  | status _ _ => exact Or.inl (hlost.of_set rfl rfl rfl not_false)
  | check _ _ => exact Or.inl (hlost.of_set rfl rfl rfl not_false)
  | @startDelete id call now log logs hcall hnext =>
      -- The one event that dooms rows, and the one the guard looks at.
      by_cases hdoomed : s.doomed now log = []
      · exact Or.inl (hlost.of_set rfl rfl rfl (fun hne => hne hdoomed))
      · refine Or.inr ⟨id, rfl, ?_⟩
        simpa [TxSystem.doomedBy, hcall, hnext] using hdoomed
  | startCollect _ => exact Or.inl (hlost.of_set rfl rfl rfl not_false)
  | acquire _ _ _ => exact Or.inl (hlost.of_set rfl rfl rfl not_false)
  | insertEnd _ _ => exact Or.inl (hlost.of_set rfl rfl rfl not_false)
  | insertRow _ => exact Or.inl (hlost.of_set rfl rfl rfl not_false)
  | @publishEnd id row hcall =>
      refine Or.inl (hlost.of_remove (fun heq => ?_) rfl)
      cases row <;> exact heq
  | @publishRows _ id pending hcall =>
      refine Or.inl (hlost.of_remove (fun heq => ?_) rfl)
      show s.tables.rows.insertAll pending = s.written.insertAll pending
      rw [heq]
  | @finishDelete id now log doomed logs hcall =>
      left
      by_cases hdoomed : doomed = []
      · -- Nothing to remove: the rows stay.
        have hrows : s.tables.rows.deleteRows log doomed = s.tables.rows :=
          TxWrites.deleteRows_eq_self (by simp [hdoomed])
        rcases s.finishDelete_calls id now log doomed logs with hcalls | hcalls
        · exact hlost.of_remove (fun heq => hrows.trans heq) hcalls
        · exact hlost.of_set hrows rfl hcalls not_false
      · exact Or.inr ⟨_, InFlight.mem_of_lookup hcall, hdoomed⟩
  | finishCollect _ => exact Or.inl (hlost.of_remove (fun heq => heq) rfl)

end Step

/-! ## Runs -/

/-- Sweeps use past clock readings, and once rows are lost the transaction is expired, not committed, and no
    call can commit it. -/
structure ExpiryInv (s : TxSystem R V) : Prop where
  clocked : ∀ p ∈ s.calls, ∀ now ∈ p.2.sweepNow, now ≤ s.clock
  lost : s.Lost → s.tables.expiresAtMicros < s.clock ∧ s.tables.commitRow = none ∧ s.NoneMayCommit

section Runs

variable {s s' : TxSystem R V} {ev : TxEvent R V}

omit [DecidableEq R] in
theorem Call.sweepNow_of_nextDelete {call : Call R V} {now : Int} {log : LogKind} {logs : List LogKind}
    (h : call.nextDelete = some (now, log, logs)) : call.sweepNow = some now := by
  unfold nextDelete at h
  split at h
  · simp only [Option.some.injEq, Prod.mk.injEq] at h
    rw [← h.1]
    rfl
  · simp only [Option.some.injEq, Prod.mk.injEq] at h
    rw [← h.1]
    rfl
  · cases h

omit [DecidableEq R] in
/-- A sweep that selects rows finds the transaction expired and not ended. -/
theorem ExpiryInv.of_doomedBy (hinv : ExpiryInv s) {id : Nat} (h : s.doomedBy id ≠ []) :
    s.tables.expiresAtMicros < s.clock ∧ s.tables.commitRow = none := by
  unfold TxSystem.doomedBy at h
  split at h
  · rename_i now log logs hnext
    obtain ⟨call, hcall, hnext⟩ := Option.bind_eq_some_iff.mp hnext
    have hle := hinv.clocked _ (InFlight.mem_of_lookup hcall) now (Call.sweepNow_of_nextDelete hnext)
    unfold TxSystem.doomed at h
    split at h
    · rename_i hexpired
      simp only [TxTables.expiredBegin, Bool.and_eq_true, decide_eq_true_eq, Option.isNone_iff_eq_none]
        at hexpired
      obtain ⟨⟨⟨-, hlt⟩, hcommit⟩, -⟩ := hexpired
      exact ⟨by omega, hcommit⟩
    · exact absurd rfl h
  · exact absurd rfl h

/-- A sweep never uses a clock reading from the future. -/
theorem ExpiryInv.clocked_step (hinv : ExpiryInv s) (h : txStep s ev = some s') :
    ∀ p ∈ s'.calls, ∀ now ∈ p.2.sweepNow, now ≤ s'.clock := by
  have hclock := (expiresAt_clock_of_txStep h).2
  have hold : ∀ p ∈ s.calls, ∀ now ∈ p.2.sweepNow, now ≤ s'.clock :=
    fun p hp now hnow => (hinv.clocked p hp now hnow).trans hclock
  have hown : ∀ {id call now}, s.calls.lookup id = some call → call.sweepNow = some now → now ≤ s'.clock :=
    fun hcall hnow => hold _ (InFlight.mem_of_lookup hcall) _ hnow
  cases transition_of_txStep h with
  | @start id kind now _ _ =>
      refine InFlight.forall_mem_set hold (fun now' hnow => ?_)
      cases kind with
      | purge => exact (Option.some.inj hnow).symm.le
      | commitTx | abortTx | writeData | purgeTxLog _ => cases hnow
  | ended _ => exact InFlight.forall_mem_remove hold
  | @startDelete id call now log logs hcall hnext =>
      refine InFlight.forall_mem_set hold (fun now' hnow => ?_)
      obtain rfl := Option.some.inj hnow
      exact hown hcall (Call.sweepNow_of_nextDelete hnext)
  | status _ _ => exact InFlight.forall_mem_set hold (fun _ hnow => by cases hnow)
  | check _ _ => exact InFlight.forall_mem_set hold (fun _ hnow => by cases hnow)
  | startCollect _ => exact InFlight.forall_mem_set hold (fun _ hnow => by cases hnow)
  | acquire _ _ _ => exact InFlight.forall_mem_set hold (fun _ hnow => by cases hnow)
  | insertEnd _ _ => exact InFlight.forall_mem_set hold (fun _ hnow => by cases hnow)
  | insertRow _ => exact InFlight.forall_mem_set hold (fun _ hnow => by cases hnow)
  | publishEnd _ => exact InFlight.forall_mem_remove hold
  | publishRows _ => exact InFlight.forall_mem_remove hold
  | @finishDelete id now log doomed logs hcall =>
      rcases s.finishDelete_calls id now log doomed logs with hcalls | hcalls
      · rw [hcalls]
        exact InFlight.forall_mem_remove hold
      · rw [hcalls]
        refine InFlight.forall_mem_set hold (fun now' hnow => ?_)
        obtain rfl := Option.some.inj hnow
        exact hown hcall rfl
  | finishCollect _ => exact InFlight.forall_mem_remove hold

/-- **Step.** An event that meets the guard keeps the invariant. -/
theorem ExpiryInv.step (hinv : ExpiryInv s) (hguard : NoCommitOnTheWay s ev) (h : txStep s ev = some s') :
    ExpiryInv s' := by
  obtain ⟨hexpires, hclock⟩ := expiresAt_clock_of_txStep h
  refine ⟨hinv.clocked_step h, fun hlost => ?_⟩
  -- Rows were lost before, or this event starts a sweep that selects some: the guard rules a commit out.
  have hbefore : s.tables.expiresAtMicros < s.clock ∧ s.tables.commitRow = none ∧ s.NoneMayCommit := by
    rcases lost_of_txStep h hlost with hlost | ⟨id, rfl, hdoomed⟩
    · exact hinv.lost hlost
    · obtain ⟨hlt, hcommit⟩ := hinv.of_doomedBy hdoomed
      exact ⟨hlt, hcommit, hguard hdoomed⟩
  obtain ⟨hlt, hcommit, hnone⟩ := hbefore
  obtain ⟨hnone', hcommit'⟩ := noneMayCommit_of_txStep hlt hnone h
  exact ⟨by omega, hcommit'.trans hcommit, hnone'⟩

end Runs

/-- **Late commits.** If no commit is on its way whenever a sweep selects rows of the transaction, then in every
    state with a visible commit row all rows the transaction ever wrote are still there. -/
theorem intact_run {clock expiresAt : Int} {evs : List (TxEvent R V)} {s : TxSystem R V}
    (hmeets : Runs.Meets txStep NoCommitOnTheWay (TxSystem.begun clock expiresAt) evs)
    (hrun : Runs.run txStep (TxSystem.begun clock expiresAt) evs = some s)
    (hcommit : s.tables.commitRow.isSome = true) : s.tables.rows = s.written := by
  have hbegun : ExpiryInv (TxSystem.begun clock expiresAt : TxSystem R V) := by
    refine ⟨by simp [TxSystem.begun], fun hlost => ?_⟩
    rcases hlost with hne | ⟨p, hp, -⟩
    · exact absurd rfl hne
    · simp [TxSystem.begun] at hp
  have hend := Runs.invariant_of_step (fun _ _ _ hinv hguard h => ExpiryInv.step hinv hguard h) hbegun hmeets hrun
  by_contra hne
  obtain ⟨-, hnone, -⟩ := hend.lost (Or.inl hne)
  rw [hnone] at hcommit
  cases hcommit

/-- A commit passes its status check just in time and waits; the transaction expires and a sweep removes its
    row; the commit goes on. -/
def lateCommitRun : List (TxEvent Nat Nat) :=
  [.start 0 .writeData 5, .statement 0, .insertRow 0 1 (.upsert 100), .finish 0,
    .start 1 .commitTx 99, .statement 1, .acquire 1,
    .start 2 .purge 101, .statement 2, .finish 2, .statement 2, .finish 2,
    .insertEnd 1 (.commit ⟨0, 102⟩), .finish 1]

/-- The commit is visible, and the row it wrote is gone. -/
theorem lateCommitRun_loses_row :
    ∃ s, Runs.run txStep (TxSystem.begun 0 100) lateCommitRun = some s ∧
      s.tables.commitRow = some ⟨0, 102⟩ ∧ s.written.writes = [⟨1, .upsert 100, 0⟩] ∧
      s.tables.rows.writes = [] := by
  have hend : (Runs.run txStep (TxSystem.begun 0 100) lateCommitRun).map (fun s =>
      decide (s.tables.commitRow = some ⟨0, 102⟩ ∧ s.written.writes = [⟨1, .upsert 100, 0⟩] ∧
        s.tables.rows.writes = [])) = some true := by decide +kernel
  obtain ⟨s, hrun, hend⟩ := Option.map_eq_some_iff.mp hend
  exact ⟨s, hrun, of_decide_eq_true hend⟩

/-- The commit becomes visible after the expiry, and before the sweeps start. -/
def sweptAfterCommitRun : List (TxEvent Nat Nat) :=
  [.start 0 .writeData 5, .statement 0, .insertRow 0 1 (.upsert 100), .finish 0,
    .start 1 .commitTx 99, .statement 1, .acquire 1, .start 2 .purge 101, .start 3 (.purgeTxLog 0) 101,
    .insertEnd 1 (.commit ⟨0, 102⟩), .finish 1, .statement 2, .finish 2, .statement 2, .finish 2,
    .statement 3, .finish 3]

theorem sweptAfterCommitRun_intact :
    ∃ s, Runs.run txStep (TxSystem.begun 0 100) sweptAfterCommitRun = some s ∧
      s.written.writes = [⟨1, .upsert 100, 0⟩] ∧ s.tables.rows = s.written := by
  have hmeets : Runs.Meets txStep NoCommitOnTheWay (TxSystem.begun 0 100) sweptAfterCommitRun := by
    decide +kernel
  have hend : (Runs.run txStep (TxSystem.begun 0 100) sweptAfterCommitRun).map (fun s =>
      decide (s.written.writes = [⟨1, .upsert 100, 0⟩] ∧ s.tables.commitRow.isSome = true)) = some true := by
    decide +kernel
  obtain ⟨s, hrun, hend⟩ := Option.map_eq_some_iff.mp hend
  obtain ⟨hwritten, hcommit⟩ := of_decide_eq_true hend
  exact ⟨s, hrun, hwritten, intact_run hmeets hrun hcommit⟩

end Penca
