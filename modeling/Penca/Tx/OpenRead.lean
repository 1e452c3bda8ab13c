import Penca.Query.Branch
import Penca.Tx.Writes

/-!
# `Tx.OpenRead` — reads inside an open transaction

An `OpenTx` read is to see what was committed before its transaction began, and the transaction's own rows.
The bound is there once per tier: `commit_seq_num < began_at_seq_num` in the hot clause, `began_at_seq_num - 1`
in the snapshot pick, in the segment window and in the cold clause. The own rows come in through a synthetic
commit row with `i64::MAX` in both columns.

`TxBranch` is a branch with the transactions begun on it; their rows are in the hot logs from the first
`WriteData` call on, and count for the existence probe, until the commit or the cleanup of an ended
transaction. A read turns out to be the read at `began_at_seq_num - 1` that brings the own rows along
(`openRead_eq`), so it is right exactly when the leftovers of its snapshot agree (`openReads_iff`).
-/

namespace Penca

open Newest

variable {R V : Type} [DecidableEq R]

/-! ## The branch and its transactions -/

/-- A transaction that has begun, with its rows in the hot logs. -/
structure BegunTx (R V : Type) where
  beganAtSeqNum : Int
  rows : TxWrites R V
  /-- Neither committed nor aborted nor expired. -/
  isOpen : Bool

/-- A branch with its transactions, numbered in the order of their begin. -/
structure TxBranch (R V : Type) where
  store : Store R V
  txs : List (BegunTx R V)
  /-- How many numbers `write_seq_num` has handed out. -/
  draws : Nat
  /-- Not stored anywhere: the transactions committed so far. -/
  history : History R V

def TxBranch.init : TxBranch R V := ⟨Store.init, [], 0, History.empty⟩

inductive OpenReadEvent (R V : Type) where
  /-- A commit of another client, a Persist, a Snapshot or a Purge. -/
  | op (o : Op R V)
  | beginTx
  | writeData (tx : Nat) (change : DataChange R V)
  | commitTx (tx : Nat) (micros : Int)
  /-- Abort or expiry. -/
  | endTx (tx : Nat)
  /-- The part of Purge that deletes the rows of an ended transaction. -/
  | sweepTx (tx : Nat)

/-- The open transaction of this number. -/
def TxBranch.openTx (b : TxBranch R V) (tx : Nat) : Option (BegunTx R V) :=
  (b.txs[tx]?).filter BegunTx.isOpen

/-- One event. The counter `BeginTx` reads is a `bigint`; a commit that fails on the unique index leaves its
    transaction open. -/
def openReadStep (cfg : PersistConfig R V) (nextval : Nat → Int) (b : TxBranch R V) :
    OpenReadEvent R V → Option (TxBranch R V)
  | .op o =>
      (step cfg b.store o).map (fun s => { b with store := s, history := historyStep b.history o })
  | .beginTx =>
      if b.store.commitSeqCounter ≤ i64Max then
        some { b with txs := b.txs ++ [⟨b.store.commitSeqCounter, TxWrites.empty, true⟩] }
      else none
  | .writeData tx change =>
      (b.openTx tx).map (fun x =>
        { b with
          txs := b.txs.set tx { x with rows := x.rows.applyChange nextval b.draws change }
          draws := b.draws + change.ops.length })
  | .commitTx tx micros =>
      (b.openTx tx).bind (fun x =>
        (b.store.commitTx micros x.rows).map (fun s =>
          if b.store.commitTxLog.any (fun c => c.commitMicros = micros) then b
          else
            { b with
              store := s
              txs := b.txs.set tx { x with rows := TxWrites.empty, isOpen := false }
              history := b.history.commit micros x.rows }))
  | .endTx tx =>
      (b.openTx tx).map (fun x => { b with txs := b.txs.set tx { x with isOpen := false } })
  | .sweepTx tx =>
      ((b.txs[tx]?).filter (fun x => !x.isOpen)).map (fun x =>
        { b with txs := b.txs.set tx { x with rows := TxWrites.empty } })

/-- The lifecycle operations of the run keep the rows. -/
def TxKeepsRows (cfg : PersistConfig R V) (b : TxBranch R V) : OpenReadEvent R V → Prop
  | .op o => KeepsRows cfg b.store o
  | _     => True

instance [DecidableEq V] (cfg : PersistConfig R V) (b : TxBranch R V) : ∀ ev, Decidable (TxKeepsRows cfg b ev)
  | .op o          => inferInstanceAs (Decidable (KeepsRows cfg b.store o))
  | .beginTx       => isTrue trivial
  | .writeData _ _ => isTrue trivial
  | .commitTx _ _  => isTrue trivial
  | .endTx _       => isTrue trivial
  | .sweepTx _     => isTrue trivial

/-! ## The read -/

/-- `plan_commit_seq_upper` of an `OpenTx` position; its `plan_as_of_micros` is `i64::MAX`. -/
def openCommitSeqUpper (beganAtSeqNum : Int) : Option Int := some (beganAtSeqNum - 1)

/-- The existence probe: either hot log has a row, committed or not. -/
def TxBranch.hotPresent (b : TxBranch R V) : Bool :=
  !b.store.hot.isEmpty || b.txs.any (fun x => !x.rows.writes.isEmpty)

/-- `plan()` for an `OpenTx` position. -/
def TxBranch.plan (b : TxBranch R V) (beganAtSeqNum : Int) : Plan R V :=
  let upper := openCommitSeqUpper beganAtSeqNum
  let hotMin := b.store.hotMin
  if hotMin = 0 then prePersistPlan i64Max
  else
    let snapshot := b.store.pickSnapshotAsOf (computeSnapshotPickerAsOf i64Max hotMin) upper
    let (fence, _) := b.store.phaseOneFenceAndExistence (wSnapOf snapshot)
    planFrom i64Max hotMin snapshot fence b.hotPresent (b.store.planSegments i64Max hotMin upper snapshot)

/-- The rows of the open transaction under the commit row `open_tx_union_clause` adds. -/
def BegunTx.ownEntries (x : BegunTx R V) : List (LogEntry R V) :=
  (⟨i64Max, i64Max, x.rows⟩ : CommittedTx R V).entries

/-- `read_snapshot_clause` and `open_tx_union_clause`: the entries `resolve_hot` ranks. `tighten_for_hot`
    leaves an `OpenTx` position as it is. -/
def TxBranch.openHotEntries (b : TxBranch R V) (x : BegunTx R V) (plan : Plan R V) : List (LogEntry R V) :=
  match plan.hotStorage with
  | none   => []
  | some p =>
      b.store.hot.filter (fun e => p.minSeq.all (fun w => decide (w < e.commitSeqNum)) &&
        decide (e.commitSeqNum < x.beganAtSeqNum)) ++ x.ownEntries

/-- `cold_visibility_clause`: the entries `resolve_cold` ranks. No persisted row is of an open transaction. -/
def TxBranch.openColdEntries (b : TxBranch R V) (x : BegunTx R V) (plan : Plan R V) : List (LogEntry R V) :=
  match plan.coldStorage.bind ColdStoragePlan.persist with
  | none   => []
  | some p => ((p.upsertSegments ++ p.deleteSegments).flatMap b.store.readSegment).filter (fun e =>
      decide (e.commitMicros < p.maxMicros) &&
        (foldColdSeqUpper (openCommitSeqUpper x.beganAtSeqNum) p.maxSeq).all (fun n =>
          decide (e.commitSeqNum ≤ n)))

/-- `read_data` inside the transaction. -/
def TxBranch.openRead (b : TxBranch R V) (x : BegunTx R V) : List (R × V) :=
  let plan := b.plan x.beganAtSeqNum
  mergeRows (mergeResolved (b.openHotEntries x plan)) (mergeResolved (b.openColdEntries x plan))
    plan.snapshotRows

/-- The read position of everything committed before the transaction began. -/
def BegunTx.position (x : BegunTx R V) : ReadSnapshot := .asOfSeq (x.beganAtSeqNum - 1)

/-- A read inside the transaction is right: it replays what was committed before the transaction began and
    then its own rows, and returns no row twice. -/
def TxBranch.OpenReadsReplay (b : TxBranch R V) (x : BegunTx R V) : Prop :=
  ((b.openRead x).map Prod.fst).Nodup ∧
    ∀ r v, (r, v) ∈ b.openRead x ↔ replayLog (openTxEntries b.history x.beganAtSeqNum x.rows) r = some v

/-! ## The read as a read of the branch -/

section Position

variable {b : TxBranch R V} {x : BegunTx R V}

omit [DecidableEq R] in
theorem BegunTx.sees_position (x : BegunTx R V) (e : LogEntry R V) :
    x.position.sees e = decide (e.commitSeqNum < x.beganAtSeqNum) := by
  have hiff : e.commitSeqNum ≤ x.beganAtSeqNum - 1 ↔ e.commitSeqNum < x.beganAtSeqNum := by omega
  exact decide_eq_decide.mpr hiff

omit [DecidableEq R] in
/-- The plan is the plan of the position, with the existence probe that counts uncommitted rows. -/
theorem TxBranch.plan_eq (b : TxBranch R V) (x : BegunTx R V) :
    b.plan x.beganAtSeqNum = b.store.planWith x.position b.hotPresent := by
  unfold plan Store.planWith
  by_cases h0 : b.store.hotMin = 0
  · rw [if_pos h0, if_pos h0]
    rfl
  · rw [if_neg h0, if_neg h0]
    rfl

omit [DecidableEq R] in
theorem Store.hotStorage_of_hotPresent {s : Store R V} (rs : ReadSnapshot) :
    ((s.planWith rs true).hotStorage).isSome = true := by
  unfold planWith
  split <;> rfl

omit [DecidableEq R] in
/-- The existence probe sees the transaction's own rows. -/
theorem TxBranch.ownEntries_eq_nil (hx : x ∈ b.txs) (h : b.hotPresent = false) :
    b.store.hot = [] ∧ x.ownEntries = [] := by
  rw [hotPresent, Bool.or_eq_false_iff] at h
  obtain ⟨hhot, hrows⟩ := h
  have hnone := List.any_eq_false.mp hrows x hx
  have hwrites : x.rows.writes = [] := by simpa using hnone
  exact ⟨by simpa using hhot, by rw [BegunTx.ownEntries, CommittedTx.entries, hwrites, List.map_nil]⟩

omit [DecidableEq R] in
theorem TxBranch.openHotEntries_eq (hx : x ∈ b.txs) :
    b.openHotEntries x (b.store.planWith x.position b.hotPresent) =
      b.store.hotEntries x.position (b.store.planWith x.position b.hotPresent) ++ x.ownEntries := by
  unfold openHotEntries Store.hotEntries
  cases hplan : (b.store.planWith x.position b.hotPresent).hotStorage with
  | some p =>
      refine congrArg (· ++ x.ownEntries) (List.filter_congr (fun e _ => ?_))
      rw [hotVisible, ← x.sees_position]
      rfl
  | none =>
      -- Without a hot plan there are no rows in the hot logs, the own ones included.
      have hpresent : b.hotPresent = false := by
        by_contra htrue
        rw [Bool.not_eq_false] at htrue
        have hsome := b.store.hotStorage_of_hotPresent x.position
        rw [← htrue, hplan] at hsome
        exact absurd (hsome.trans htrue) Bool.false_ne_true
      exact (ownEntries_eq_nil hx hpresent).2.symm

/-- **The read inside a transaction** is the read at the position before its begin that brings the own rows
    along. -/
theorem TxBranch.openRead_eq (hx : x ∈ b.txs) :
    b.openRead x =
      b.store.readPlanWith x.position (b.store.planWith x.position b.hotPresent) x.ownEntries := by
  rw [openRead, plan_eq]
  show mergeRows (mergeResolved (b.openHotEntries x _)) _ _ = _
  rw [openHotEntries_eq hx]
  rfl

omit [DecidableEq R] in
/-- The own rows are newer than everything the position sees. -/
theorem BegunTx.ownRows (H : History R V) (hbegan : x.beganAtSeqNum ≤ i64Max) :
    OwnRows H.log x.position x.ownEntries where
  separated := by
    intro e he e' he' hrow hver
    exact CommittedTx.eq_of_rowUuid_of_kind he he' hrow (LogEntry.kind_eq_of_version_eq hver)
  newer := by
    intro o ho e he
    have hsees := (BranchLog.mem_visibleTo.mp he).2
    rw [sees_position, decide_eq_true_eq] at hsees
    apply LogEntry.version_lt_of_commitSeqNum_lt
    rw [CommittedTx.commitSeqNum_of_mem ho]
    exact lt_of_lt_of_le hsees hbegan
  above := fun o ho => (CommittedTx.commitMicros_of_mem ho).ge

omit [DecidableEq R] in
theorem visibleTo_append_ownEntries (H : History R V) :
    H.log.visibleTo x.position ++ x.ownEntries = openTxEntries H x.beganAtSeqNum x.rows := by
  refine congrArg (· ++ x.ownEntries) (List.filter_congr (fun e _ => ?_))
  exact x.sees_position e

end Position

/-! ## Runs -/

/-- The invariant of a branch with transactions. -/
structure TxBranch.Inv (b : TxBranch R V) : Prop where
  lifecycle : Penca.Inv b.store b.history
  contents : b.store.SnapshotsReplay b.history.log
  began : ∀ x ∈ b.txs, x.beganAtSeqNum ≤ i64Max

section Step

variable {cfg : PersistConfig R V} {nextval : Nat → Int} {b b' : TxBranch R V}

omit [DecidableEq R] in
theorem TxBranch.openTx_eq_some {tx : Nat} {x : BegunTx R V} (h : b.openTx tx = some x) :
    x ∈ b.txs ∧ x.isOpen = true := by
  obtain ⟨hmem, hopen⟩ := Option.filter_eq_some_iff.mp h
  exact ⟨List.mem_of_getElem? hmem, hopen⟩

omit [DecidableEq R] in
/-- An update of a transaction that keeps its begin number keeps the bound. -/
theorem began_set {txs : List (BegunTx R V)} (h : ∀ x ∈ txs, x.beganAtSeqNum ≤ i64Max) {tx : Nat}
    {y : BegunTx R V} (hy : y.beganAtSeqNum ≤ i64Max) : ∀ x ∈ txs.set tx y, x.beganAtSeqNum ≤ i64Max := by
  intro x hx
  rcases List.mem_or_eq_of_mem_set hx with hx | rfl
  · exact h x hx
  · exact hy

/-- **Step.** Every event keeps the invariant, a Persist if it does not clobber and a Snapshot if it rewrites
    what it replaces. -/
theorem TxBranch.Inv.step {ev : OpenReadEvent R V} (hinv : b.Inv) (hok : TxKeepsRows cfg b ev)
    (h : openReadStep cfg nextval b ev = some b') : b'.Inv := by
  cases ev with
  | op o =>
      obtain ⟨s, hs, rfl⟩ := Option.map_eq_some_iff.mp h
      exact ⟨hinv.lifecycle.step hok.1 hs, hinv.lifecycle.replays_step hinv.contents hok.2 hs, hinv.began⟩
  | beginTx =>
      simp only [openReadStep] at h
      split at h
      case isFalse => cases h
      case isTrue hle =>
        cases h
        refine ⟨hinv.lifecycle, hinv.contents, fun x hx => ?_⟩
        rcases List.mem_append.mp hx with hx | hx
        · exact hinv.began x hx
        · rw [List.mem_singleton.mp hx]
          exact hle
  | writeData tx change =>
      obtain ⟨x, hx, rfl⟩ := Option.map_eq_some_iff.mp h
      exact ⟨hinv.lifecycle, hinv.contents, began_set hinv.began (hinv.began x (openTx_eq_some hx).1)⟩
  | commitTx tx micros =>
      obtain ⟨x, hx, h⟩ := Option.bind_eq_some_iff.mp h
      obtain ⟨s, hs, rfl⟩ := Option.map_eq_some_iff.mp h
      split
      · exact hinv
      · have hcommit : Penca.step cfg b.store (.commit micros x.rows) = some s := hs
        have hrewrites : RewritesReplaced cfg b.store (.commit micros x.rows) := trivial
        exact ⟨hinv.lifecycle.commitTx hs, hinv.lifecycle.replays_step hinv.contents hrewrites hcommit,
          began_set hinv.began (hinv.began x (openTx_eq_some hx).1)⟩
  | endTx tx =>
      obtain ⟨x, hx, rfl⟩ := Option.map_eq_some_iff.mp h
      exact ⟨hinv.lifecycle, hinv.contents, began_set hinv.began (hinv.began x (openTx_eq_some hx).1)⟩
  | sweepTx tx =>
      obtain ⟨x, hx, rfl⟩ := Option.map_eq_some_iff.mp h
      have hmem := List.mem_of_getElem? (Option.filter_eq_some_iff.mp hx).1
      exact ⟨hinv.lifecycle, hinv.contents, began_set hinv.began (hinv.began x hmem)⟩

theorem txInv_run {evs : List (OpenReadEvent R V)}
    (hmeets : Runs.Meets (openReadStep cfg nextval) (TxKeepsRows cfg) TxBranch.init evs)
    (hrun : Runs.run (openReadStep cfg nextval) TxBranch.init evs = some b) : b.Inv :=
  Runs.invariant_of_step (fun _ _ _ hinv hok h => hinv.step hok h)
    ⟨Penca.Inv.init, .init _, fun _ hx => absurd hx List.not_mem_nil⟩ hmeets hrun

end Step

theorem TxBranch.Inv.openReadsReplay_iff {b : TxBranch R V} (hinv : b.Inv) {x : BegunTx R V} (hx : x ∈ b.txs) :
    b.OpenReadsReplay x ↔ b.store.LeftoversAgree x.position x.ownEntries := by
  have hbegan := hinv.began x hx
  have hread := hinv.lifecycle.branch.readsWith_iff hinv.contents (x.ownRows b.history hbegan)
    (TxBranch.ownEntries_eq_nil hx) (fun h => absurd h Bool.false_ne_true)
  rw [← hread, OpenReadsReplay, Store.ReadsWith, openRead_eq hx, visibleTo_append_ownEntries]
  refine and_congr_right (fun _ => forall_congr' (fun r => forall_congr' (fun v => ?_)))
  rw [replayLog, replay_apply (separated_openTxEntries b.history hbegan x.rows), newestEffect]

/-- **Snapshot isolation with the own writes.** In every state a run reaches (its Persists not clobbering an
    earlier segment, its Snapshots rewriting what they replace), a read inside an open transaction replays what
    was committed before the transaction began and then its own rows exactly when the leftovers of the snapshot it
    picks agree with it. -/
theorem openReads_iff (cfg : PersistConfig R V) (nextval : Nat → Int) (evs : List (OpenReadEvent R V))
    (b : TxBranch R V) (hmeets : Runs.Meets (openReadStep cfg nextval) (TxKeepsRows cfg) TxBranch.init evs)
    (hrun : Runs.run (openReadStep cfg nextval) TxBranch.init evs = some b) (tx : Nat) (x : BegunTx R V)
    (hx : b.openTx tx = some x) :
    b.OpenReadsReplay x ↔ b.store.LeftoversAgree x.position x.ownEntries :=
  (txInv_run hmeets hrun).openReadsReplay_iff (TxBranch.openTx_eq_some hx).1

/-- A transaction that begins after a row was upserted, deleted, persisted and folded, and the unpurged
    upsert persisted again. -/
def deletedBeforeBegin : List (OpenReadEvent Nat Nat) :=
  [.op (.commit 10 (.single 1 (.upsert 5) 0)), .op (.commit 20 (.single 1 .delete 1)), .op (.persist none 25),
    .op (.snapshot none []), .op (.commit 30 (.single 2 (.upsert 7) 2)), .op (.persist none 35), .beginTx]

/-- The row deleted before the transaction began is back. -/
theorem deletedBeforeBegin_read :
    ∃ b x, Runs.run (openReadStep oneByteRows (fun n => n)) TxBranch.init deletedBeforeBegin = some b ∧
      b.openTx 0 = some x ∧ (1, 5) ∈ b.openRead x ∧
      replayLog (openTxEntries b.history x.beganAtSeqNum x.rows) 1 = none := by
  have hend : ((Runs.run (openReadStep oneByteRows (fun n => n)) TxBranch.init deletedBeforeBegin).bind
      (fun b => (b.openTx 0).map (fun x => decide ((1, 5) ∈ b.openRead x ∧
        replayLog (openTxEntries b.history x.beganAtSeqNum x.rows) 1 = none)))) = some true := by
    decide +kernel
  obtain ⟨b, hrun, hb⟩ := Option.bind_eq_some_iff.mp hend
  obtain ⟨x, hx, hread⟩ := Option.map_eq_some_iff.mp hb
  obtain ⟨hmem, hnone⟩ := of_decide_eq_true hread
  exact ⟨b, x, hrun, hx, hmem, hnone⟩

/-- Transaction 0 begins over a snapshot, a persisted and a hot row, overwrites one row and adds one;
    transactions 1 and 2 write as well, 1 commits and 2 is aborted; everything else commits is persisted,
    folded and purged. -/
def isolatedReader : List (OpenReadEvent Nat Nat) :=
  [.op (.commit 10 (.single 1 (.upsert 5) 0)), .op (.persist none 15), .op (.snapshot none []), .op .purge,
    .op (.commit 20 (.single 2 (.upsert 6) 1)), .op (.persist none 25),
    .op (.commit 30 (.single 3 (.upsert 7) 2)), .beginTx, .beginTx, .beginTx, .writeData 0 (.upsertRow 2 60),
    .writeData 1 (.upsertRow 1 50), .writeData 2 (.upsertRow 3 70), .writeData 0 (.upsertRow 4 80),
    .commitTx 1 40, .endTx 2, .op (.persist none 45), .op (.snapshot none []), .op .purge, .sweepTx 2]

/-- The reader sees the three rows as they were at its begin and its own two writes. -/
theorem isolatedReader_openReads :
    ∃ b x, Runs.run (openReadStep oneByteRows (fun n => n)) TxBranch.init isolatedReader = some b ∧
      b.openTx 0 = some x ∧ b.OpenReadsReplay x := by
  have hend : ((Runs.run (openReadStep oneByteRows (fun n => n)) TxBranch.init isolatedReader).bind
      (fun b => (b.openTx 0).map (fun x => decide (b.store.LeftoversAgree x.position x.ownEntries)))) =
        some true := by decide +kernel
  obtain ⟨b, hrun, hb⟩ := Option.bind_eq_some_iff.mp hend
  obtain ⟨x, hx, hagree⟩ := Option.map_eq_some_iff.mp hb
  refine ⟨b, x, hrun, hx, ?_⟩
  exact (openReads_iff oneByteRows (fun n => n) isolatedReader b (by decide +kernel) hrun 0 x hx).mpr
    (of_decide_eq_true hagree)

end Penca
