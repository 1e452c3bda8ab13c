import Penca.Tx.Calls

/-!
# `Tx.Exclusion` — committing and aborting one transaction

`CommitTx` and `AbortTx` lock the begin row and decide by the commit and abort columns their status statement
returned. A statement that had to wait returns the columns of its start: the call that held the lock may have
ended the transaction since.

- **Always:** the lock excludes, and the primary key lets one commit through (`lockInv_run`).
- **Without such a waiter** (`NoStaleWaiter`) a transaction never has both end rows (`endsOnce_run`).
-/

namespace Penca

variable {R V : Type} [DecidableEq R]

/-! ## Lemmas on what is visible -/

namespace TxTables

omit [DecidableEq R]

variable {t t' : TxTables R V}

theorem Lacks.of_eq {kind : EndKind} (h : t.Lacks kind) (hcommit : t'.commitRow = t.commitRow)
    (habort : t'.abortRow = t.abortRow) : t'.Lacks kind := by
  cases kind with
  | commit => exact hcommit.trans h
  | abort => exact habort.trans h

theorem Lacks.publish {kind : EndKind} {row : EndRow} (h : t.Lacks kind) (hne : kind ≠ row.kind) :
    (t.publish row).Lacks kind := by
  cases row with
  | commit row =>
      cases kind with
      | commit => exact absurd rfl hne
      | abort => exact h
  | abort abortedAt =>
      cases kind with
      | commit => exact h
      | abort => exact absurd rfl hne

theorem lacks_of_opened {now : Int} (h : t.getTxStatus now = some .opened) (kind : EndKind) : t.Lacks kind := by
  unfold getTxStatus at h
  split at h
  · split at h
    · simp at h
    · simp at h
    · cases kind with
      | commit => assumption
      | abort => assumption
  · simp at h

end TxTables

theorem EndKind.other_ne (kind : EndKind) : kind.other ≠ kind := by cases kind <;> decide

theorem EndKind.ne_of_ne_other {kind kind' : EndKind} (h : kind ≠ kind'.other) : kind.other ≠ kind' := by
  cases kind <;> cases kind' <;> simp [other] at h ⊢

/-! ## The lock -/

/-- At most one call is past the lock, its row is not visible yet, and successes are counted by the visible
    commit row. -/
structure LockInv (s : TxSystem R V) : Prop where
  alone : InFlight.Alone Call.holdsLock s.calls
  unpublished : ∀ p ∈ s.calls, ∀ row, p.2 = .inserted row → s.tables.Lacks row.kind
  reported : s.commitsReported = if s.tables.commitRow.isSome then 1 else 0

section Lock

variable {s s' : TxSystem R V} {id : Nat} {call : Call R V}

omit [DecidableEq R]

theorem LockInv.begun (clock expiresAt : Int) : LockInv (TxSystem.begun clock expiresAt : TxSystem R V) where
  alone := InFlight.Alone.nil
  unpublished := by simp [TxSystem.begun]
  reported := rfl

theorem LockInv.endCall (hinv : LockInv s) : LockInv (s.endCall id) where
  alone := hinv.alone.remove
  unpublished := InFlight.forall_mem_remove hinv.unpublished
  reported := hinv.reported

theorem LockInv.setCall (hinv : LockInv s)
    (hlock : call.holdsLock = true → ∀ p ∈ s.calls, p.1 ≠ id → p.2.holdsLock = false)
    (hrow : ∀ row, call = .inserted row → s.tables.Lacks row.kind) : LockInv (s.setCall id call) where
  alone := hinv.alone.set hlock
  unpublished := InFlight.forall_mem_set hinv.unpublished hrow
  reported := hinv.reported

theorem LockInv.setCall_of_not_holds (hinv : LockInv s) (h : call.holdsLock = false) : LockInv (s.setCall id call) := by
  refine hinv.setCall (fun hholds => ?_) (fun row hrow => ?_)
  · simp [h] at hholds
  · simp [hrow, Call.holdsLock] at h

theorem LockInv.of_eq (hinv : LockInv s) (hcalls : s'.calls = s.calls)
    (hcommit : s'.tables.commitRow = s.tables.commitRow) (habort : s'.tables.abortRow = s.tables.abortRow)
    (hreported : s'.commitsReported = s.commitsReported) : LockInv s' where
  alone := hcalls ▸ hinv.alone
  unpublished := by
    intro p hp row hrow
    exact (hinv.unpublished p (hcalls ▸ hp) row hrow).of_eq hcommit habort
  reported := by rw [hreported, hinv.reported, hcommit]

/-- When a call publishes its row, no other call is past the lock. -/
theorem LockInv.others (hinv : LockInv s) {row : EndRow} (hcall : s.calls.lookup id = some (.inserted row)) :
    ∀ p ∈ s.calls, p.1 ≠ id → p.2.holdsLock = false :=
  hinv.alone.others (InFlight.mem_of_lookup hcall) rfl

theorem LockInv.publishEnd (hinv : LockInv s) {row : EndRow}
    (hcall : s.calls.lookup id = some (.inserted row)) : LockInv (s.publishEnd id row) where
  alone := hinv.alone.remove
  unpublished := by
    intro p hp row' hrow'
    obtain ⟨hmem, hne⟩ := InFlight.mem_remove.mp hp
    have hfree := hinv.others hcall p hmem hne
    simp [hrow', Call.holdsLock] at hfree
  reported := by
    have hlacks := hinv.unpublished _ (InFlight.mem_of_lookup hcall) row rfl
    cases row with
    | commit row =>
        -- The row is not visible yet, so no success is counted yet.
        have hcount : s.commitsReported = 0 := by
          have hnone : s.tables.commitRow = none := hlacks
          rw [hinv.reported, hnone]
          rfl
        simp [TxSystem.publishEnd, TxTables.publish, EndRow.kind, hcount]
    | abort abortedAt => exact hinv.reported

end Lock

/-- **Step.** Every event keeps the lock invariant. -/
theorem LockInv.step {s s' : TxSystem R V} {ev : TxEvent R V} (hinv : LockInv s) (h : txStep s ev = some s') :
    LockInv s' := by
  cases transition_of_txStep h with
  | start _ _ => exact (hinv.setCall_of_not_holds rfl).of_eq rfl rfl rfl rfl
  | ended _ => exact hinv.endCall
  | status _ _ => exact hinv.setCall_of_not_holds rfl
  | check _ _ => exact hinv.setCall_of_not_holds rfl
  | startDelete _ _ => exact hinv.setCall_of_not_holds rfl
  | startCollect _ => exact hinv.setCall_of_not_holds rfl
  | acquire _ hfree _ =>
      -- The lock is free, so nobody else is past it.
      refine hinv.setCall (fun _ p hp _ => ?_) (by simp)
      rw [TxSystem.locked, List.any_eq_false] at hfree
      simpa using hfree p hp
  | insertEnd hcall hlacks =>
      refine hinv.setCall (fun _ => hinv.alone.others (InFlight.mem_of_lookup hcall) rfl) ?_
      intro row hrow
      obtain rfl := Call.inserted.inj hrow
      exact hlacks
  | insertRow _ => exact (hinv.setCall_of_not_holds rfl).of_eq rfl rfl rfl rfl
  | publishEnd hcall => exact hinv.publishEnd hcall
  | publishRows _ => exact hinv.endCall.of_eq rfl rfl rfl rfl
  | finishDelete _ =>
      rcases s.finishDelete_calls _ _ _ _ _ with hcalls | hcalls
      · exact hinv.endCall.of_eq hcalls rfl rfl rfl
      · exact (hinv.setCall_of_not_holds rfl).of_eq hcalls rfl rfl rfl
  | finishCollect _ => exact hinv.endCall.of_eq rfl rfl rfl rfl

/-- **Run.** The lock invariant holds in every state the calls reach. -/
theorem lockInv_run {clock expiresAt : Int} {evs : List (TxEvent R V)} {s : TxSystem R V}
    (hrun : Runs.run txStep (TxSystem.begun clock expiresAt) evs = some s) : LockInv s := by
  refine Runs.invariant_of_step (G := fun _ _ => True) (fun _ _ _ hinv _ h => hinv.step h)
    (LockInv.begun clock expiresAt) ?_ hrun
  exact Runs.meets_of_forall (fun _ _ => trivial) _ evs

/-! ## Exclusion -/

/-- What a call that may still end the transaction knows: the other end row is not visible. -/
def Call.Excluding (t : TxTables R V) : Call R V → Prop
  | .locking kind now snapshot => snapshot.getTxStatus now = some .opened → t.Lacks kind.other
  | .holding kind              => t.Lacks kind.other
  | .inserted row              => t.Lacks row.kind.other
  | _                          => True

/-- The call waits for the lock with a status that will let it end the transaction this way. -/
def Call.WaitsToEnd (kind : EndKind) : Call R V → Prop
  | .locking kind' now snapshot => kind' = kind ∧ snapshot.getTxStatus now = some .opened
  | _                           => False

/-- The row a call publishes when it finishes. -/
def TxSystem.endRowOf (s : TxSystem R V) (id : Nat) : Option EndRow :=
  match s.calls.lookup id with
  | some (.inserted row) => some row
  | _                    => none

/-- The guard on an event: when a call makes its end row visible, no call of the other kind that read the
    transaction as open is still waiting for the lock. -/
def NoStaleWaiter (s : TxSystem R V) : TxEvent R V → Prop
  | .finish id => ∀ row ∈ s.endRowOf id, ∀ p ∈ s.calls, ¬ p.2.WaitsToEnd row.kind.other
  | _          => True

instance (kind : EndKind) : ∀ call : Call R V, Decidable (call.WaitsToEnd kind)
  | .locking _ _ _    => inferInstanceAs (Decidable (_ ∧ _))
  | .started _ _      => isFalse id
  | .holding _        => isFalse id
  | .inserted _       => isFalse id
  | .writing _        => isFalse id
  | .sweeping _ _     => isFalse id
  | .deleting _ _ _ _ => isFalse id
  | .collecting _     => isFalse id

instance (s : TxSystem R V) : ∀ ev, Decidable (NoStaleWaiter s ev)
  | .finish id        => inferInstanceAs (Decidable (∀ row ∈ s.endRowOf id, ∀ p ∈ s.calls, _))
  | .start _ _ _      => isTrue trivial
  | .statement _      => isTrue trivial
  | .acquire _        => isTrue trivial
  | .insertEnd _ _    => isTrue trivial
  | .insertRow _ _ _  => isTrue trivial
  | .fail _           => isTrue trivial

/-- Nobody who may still end the transaction is misinformed, and it has not ended twice. -/
structure ExclusionInv (s : TxSystem R V) : Prop extends LockInv s where
  excluding : ∀ p ∈ s.calls, p.2.Excluding s.tables
  exclusive : s.tables.Lacks .commit ∨ s.tables.Lacks .abort

section Exclusion

variable {s s' : TxSystem R V} {id : Nat}

omit [DecidableEq R] in
theorem Call.Excluding.of_eq {t t' : TxTables R V} {call : Call R V} (h : call.Excluding t)
    (hcommit : t'.commitRow = t.commitRow) (habort : t'.abortRow = t.abortRow) : call.Excluding t' := by
  cases call with
  | locking kind now snapshot => exact fun hopen => (h hopen).of_eq hcommit habort
  | holding kind => exact TxTables.Lacks.of_eq h hcommit habort
  | inserted row => exact TxTables.Lacks.of_eq h hcommit habort
  | started _ _ | writing _ | sweeping _ _ | deleting _ _ _ _ | collecting _ => trivial

omit [DecidableEq R] in
/-- An event that publishes no end row only has to give its call a correct view. -/
theorem ExclusionInv.of_frame (hinv : ExclusionInv s) (hlock : LockInv s')
    (hcommit : s'.tables.commitRow = s.tables.commitRow) (habort : s'.tables.abortRow = s.tables.abortRow)
    (hcalls : ∀ p ∈ s'.calls, p ∈ s.calls ∨ p.2.Excluding s.tables) : ExclusionInv s' where
  toLockInv := hlock
  excluding := by
    intro p hp
    rcases hcalls p hp with hp | hp
    · exact (hinv.excluding p hp).of_eq hcommit habort
    · exact hp.of_eq hcommit habort
  exclusive := by
    rcases hinv.exclusive with h | h
    · exact Or.inl (h.of_eq hcommit habort)
    · exact Or.inr (h.of_eq hcommit habort)

omit [DecidableEq R] in
theorem ExclusionInv.of_set (hinv : ExclusionInv s) (hlock : LockInv s')
    (hcommit : s'.tables.commitRow = s.tables.commitRow) (habort : s'.tables.abortRow = s.tables.abortRow)
    {call : Call R V} (hcalls : s'.calls = InFlight.set s.calls id call) (hcall : call.Excluding s.tables) :
    ExclusionInv s' := by
  refine hinv.of_frame hlock hcommit habort (fun p hp => ?_)
  rw [hcalls] at hp
  rcases InFlight.mem_set.mp hp with rfl | ⟨hp, -⟩
  · exact Or.inr hcall
  · exact Or.inl hp

omit [DecidableEq R] in
theorem ExclusionInv.of_remove (hinv : ExclusionInv s) (hlock : LockInv s')
    (hcommit : s'.tables.commitRow = s.tables.commitRow) (habort : s'.tables.abortRow = s.tables.abortRow)
    (hcalls : s'.calls = InFlight.remove s.calls id) : ExclusionInv s' := by
  refine hinv.of_frame hlock hcommit habort (fun p hp => Or.inl ?_)
  rw [hcalls] at hp
  exact (InFlight.mem_remove.mp hp).1

omit [DecidableEq R] in
/-- **Publishing** the end row keeps exclusion: the publisher knows that the other row is missing, and no
    waiter counts on this one to be. -/
theorem ExclusionInv.publishEnd (hinv : ExclusionInv s) {row : EndRow}
    (hcall : s.calls.lookup id = some (.inserted row))
    (hwait : ∀ p ∈ s.calls, ¬ p.2.WaitsToEnd row.kind.other) : ExclusionInv (s.publishEnd id row) where
  toLockInv := hinv.toLockInv.publishEnd hcall
  excluding := by
    intro p hp
    obtain ⟨hmem, hne⟩ := InFlight.mem_remove.mp hp
    have hfree := hinv.toLockInv.others hcall p hmem hne
    have hold := hinv.excluding p hmem
    have hnot := hwait p hmem
    cases hc : p.2 with
    | locking kind now snapshot =>
        -- The guard: a waiter that will go on is of the kind just published.
        rw [hc] at hold hnot
        intro hopen
        refine (hold hopen).publish (EndKind.ne_of_ne_other (fun hkind => ?_))
        exact hnot ⟨hkind, hopen⟩
    | holding kind => simp [hc, Call.holdsLock] at hfree
    | inserted row' => simp [hc, Call.holdsLock] at hfree
    | started _ _ | writing _ | sweeping _ _ | deleting _ _ _ _ | collecting _ => trivial
  exclusive := by
    have hother : s.tables.Lacks row.kind.other := hinv.excluding _ (InFlight.mem_of_lookup hcall)
    have hkept := hother.publish row.kind.other_ne
    cases row with
    | commit row => exact Or.inr hkept
    | abort abortedAt => exact Or.inl hkept

end Exclusion

/-- **Step.** An event without a stale waiter keeps exclusion. -/
theorem ExclusionInv.step {s s' : TxSystem R V} {ev : TxEvent R V} (hinv : ExclusionInv s)
    (hguard : NoStaleWaiter s ev) (h : txStep s ev = some s') : ExclusionInv s' := by
  have hlock := hinv.toLockInv.step h
  have hown : ∀ {id call}, s.calls.lookup id = some call → call.Excluding s.tables :=
    fun hcall => hinv.excluding _ (InFlight.mem_of_lookup hcall)
  cases transition_of_txStep h with
  | start _ _ => exact hinv.of_set hlock rfl rfl rfl trivial
  | ended _ => exact hinv.of_remove hlock rfl rfl rfl
  | status _ _ => exact hinv.of_set hlock rfl rfl rfl (fun hopen => TxTables.lacks_of_opened hopen _)
  | check _ _ => exact hinv.of_set hlock rfl rfl rfl trivial
  | startDelete _ _ => exact hinv.of_set hlock rfl rfl rfl trivial
  | startCollect _ => exact hinv.of_set hlock rfl rfl rfl trivial
  | acquire hcall _ hopen =>
      -- The status is the one of the statement's start, and it is still right.
      exact hinv.of_set hlock rfl rfl rfl (hown hcall hopen)
  | insertEnd hcall _ =>
      have hother : s.tables.Lacks _ := hown hcall
      exact hinv.of_set hlock rfl rfl rfl hother
  | insertRow _ => exact hinv.of_set hlock rfl rfl rfl trivial
  | publishEnd hcall =>
      refine hinv.publishEnd hcall (hguard _ ?_)
      simp [TxSystem.endRowOf, hcall]
  | publishRows _ => exact hinv.of_remove hlock rfl rfl rfl
  | finishDelete _ =>
      rcases s.finishDelete_calls _ _ _ _ _ with hcalls | hcalls
      · exact hinv.of_remove hlock rfl rfl hcalls
      · exact hinv.of_set hlock rfl rfl hcalls trivial
  | finishCollect _ => exact hinv.of_remove hlock rfl rfl rfl

/-- **Exclusion.** However the calls interleave, at most one reports a successful commit; and if no end row
    becomes visible while a call of the other kind waits with an open status, no state has both end rows. -/
theorem endsOnce_run {clock expiresAt : Int} {evs : List (TxEvent R V)} {s : TxSystem R V}
    (hrun : Runs.run txStep (TxSystem.begun clock expiresAt) evs = some s) :
    s.commitsReported ≤ 1 ∧
      (Runs.Meets txStep NoStaleWaiter (TxSystem.begun clock expiresAt) evs →
        ¬ (s.tables.commitRow.isSome = true ∧ s.tables.abortRow.isSome = true)) := by
  refine ⟨?_, fun hmeets => ?_⟩
  · rw [(lockInv_run hrun).reported]
    split <;> omega
  · have hbegun : ExclusionInv (TxSystem.begun clock expiresAt : TxSystem R V) :=
      ⟨LockInv.begun clock expiresAt, by simp [TxSystem.begun], Or.inl rfl⟩
    have hend : ExclusionInv s :=
      Runs.invariant_of_step (fun _ _ _ hinv hguard h => hinv.step hguard h) hbegun hmeets hrun
    rintro ⟨hcommit, habort⟩
    rcases hend.exclusive with hnone | hnone
    · have : s.tables.commitRow = none := hnone
      simp [this] at hcommit
    · have : s.tables.abortRow = none := hnone
      simp [this] at habort

/-- An abort waits for the lock a commit holds. -/
def staleWaiterRun : List (TxEvent Nat Nat) :=
  [.start 0 .commitTx 5, .start 1 .abortTx 6, .statement 0, .statement 1, .acquire 0,
    .insertEnd 0 (.commit ⟨0, 7⟩), .finish 0, .acquire 1, .insertEnd 1 (.abort 8), .finish 1]

/-- The abort still reads the transaction as open, and both end rows become visible. -/
theorem staleWaiterRun_ends_twice :
    ∃ s, Runs.run txStep (TxSystem.begun 0 100) staleWaiterRun = some s ∧
      s.tables.commitRow.isSome = true ∧ s.tables.abortRow.isSome = true := by
  have hend : (Runs.run txStep (TxSystem.begun 0 100) staleWaiterRun).map (fun s =>
      decide (s.tables.commitRow.isSome = true ∧ s.tables.abortRow.isSome = true)) = some true := by
    decide +kernel
  obtain ⟨s, hrun, hend⟩ := Option.map_eq_some_iff.mp hend
  exact ⟨s, hrun, of_decide_eq_true hend⟩

/-- Two commits and an abort; the abort starts its status statement after the first commit is visible. -/
def lateAbortRun : List (TxEvent Nat Nat) :=
  [.start 0 .commitTx 5, .start 1 .abortTx 6, .start 2 .commitTx 6, .statement 0, .statement 2, .acquire 0,
    .insertEnd 0 (.commit ⟨0, 7⟩), .finish 0, .statement 1, .acquire 1, .acquire 2,
    .insertEnd 2 (.commit ⟨1, 9⟩)]

theorem lateAbortRun_ends_once :
    ∃ s, Runs.run txStep (TxSystem.begun 0 100) lateAbortRun = some s ∧ s.calls.length = 0 ∧
      s.commitsReported ≤ 1 ∧ ¬ (s.tables.commitRow.isSome = true ∧ s.tables.abortRow.isSome = true) := by
  have hmeets : Runs.Meets txStep NoStaleWaiter (TxSystem.begun 0 100) lateAbortRun := by decide +kernel
  have hend : (Runs.run txStep (TxSystem.begun 0 100) lateAbortRun).map (fun s =>
      decide (s.calls.length = 0)) = some true := by decide +kernel
  obtain ⟨s, hrun, hend⟩ := Option.map_eq_some_iff.mp hend
  obtain ⟨hone, hexcl⟩ := endsOnce_run hrun
  exact ⟨s, hrun, of_decide_eq_true hend, hone, hexcl hmeets⟩

end Penca
